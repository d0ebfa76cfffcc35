import Reir.Emission

/-! Typing rules for the expressions that the compiler turns into LLVM values. An operator that
yields an `i1` is typed only between operands of type `i1`, because `get_type` gives it the type
of its operands. -/
namespace Reir
open Gen

/-- What the type of an expression depends on: the types of the slots that names stand for, and
the type of strings. -/
structure TypeEnv where
  slot : Text → Option LLType
  string : Option LLType

def Ctx.typeEnv (c : Ctx) : TypeEnv where
  slot := fun x => (c.vars x).join.bind fun i => c.slots[i]?
  string := c.types (text "string")

namespace TypeEnv
variable (Γ : TypeEnv)

def literal : MaybeValue → Option LLType
  | some (.int _) => some .i64
  | some (.varchar _) => Γ.string
  | _ => none

def convert (t : NodeType) : Option LLType :=
  match t.id with
  | .integer => some .i64
  | .string => Γ.string
  | .double => some .double
  | _ => none

/-- The type of the field a member reference points to. -/
def field (p : Expression) (offset : Option ℕ) : Option LLType :=
  match p with
  | .variable _ x => do
    let t ← Γ.slot x
    let i ← offset
    t.fieldAt i
  | _ => none

end TypeEnv

def Operators.isArithmetic : Operators → Bool
  | .plus | .minus | .multiple | .division | .modulo => true
  | _ => false

def operatorType (op : Operators) (l r : LLType) : Option LLType :=
  if op.isArithmetic then if l = r then some l else none
  else if l = .i1 ∧ r = .i1 then some .i1
  else none

/-- The elements of a row are no pointers. -/
def rowLiteralType (ts : List LLType) : Option LLType :=
  if ts.any LLType.isPointer then none else some (.row ts)

/-- The elements of an array are all of the type of the first. -/
def arrayLiteralOf : List LLType → Option LLType
  | [] => none
  | t :: ts => if ts.all (· = t) then some (.array t (ts.length+1)) else none

def elementOf : LLType → Option LLType
  | .array t _ => some t
  | _ => none

def calleeType : Expression → Option LLType
  | .variable _ f => functionType f
  | _ => none

mutual

def Expression.infer (Γ : TypeEnv) : Expression → Option LLType
  | .primary _ v => Γ.literal v
  | .binary _ l op r => do
    let lt ← l.infer Γ
    let rt ← r.infer Γ
    operatorType op lt rt
  | .pointerOf _ t => (t.infer Γ).map .ptr
  | .rowLiteral _ es => (inferAll Γ es).bind rowLiteralType
  | .arrayLiteral _ es => (inferAll Γ es).bind arrayLiteralOf
  | .variable _ x => Γ.slot x
  | .functionCall _ p as => do
    let _ ← inferAll Γ as
    calleeType p
  | .arrayReference _ p i => do
    let pt ← inferParent Γ p
    let _ ← i.infer Γ
    elementOf pt
  | .memberReference n p _ o => do
    let f ← Γ.field p o
    let t ← n.type.bind Γ.convert
    if t = f then some f else none
  | .assign _ t v => do
    let u ← t.inferRef Γ
    let vt ← v.infer Γ
    if vt = u then some u else none

/-- The type an assignment target points to. -/
def Expression.inferRef (Γ : TypeEnv) : Expression → Option LLType
  | .variable _ x => Γ.slot x
  | .arrayReference _ p i => do
    let pt ← inferParent Γ p
    let _ ← i.infer Γ
    elementOf pt
  | .memberReference _ p _ o => Γ.field p o
  | _ => none

def inferAll (Γ : TypeEnv) : List Expression → Option (List LLType)
  | [] => some []
  | e :: es => do
    let t ← e.infer Γ
    let ts ← inferAll Γ es
    pure (t :: ts)

def inferParent (Γ : TypeEnv) : Option Expression → Option LLType
  | none => none
  | some p => p.infer Γ

end

mutual

/-- The expressions whose value is asked for when the value of this one is. -/
def Expression.evaluated : Expression → List Expression
  | .primary n v => [.primary n v]
  | .binary n l op r => .binary n l op r :: (l.evaluated ++ r.evaluated)
  | .pointerOf n t => .pointerOf n t :: t.evaluated
  | .rowLiteral n es => .rowLiteral n es :: evaluatedAll es
  | .arrayLiteral n es => .arrayLiteral n es :: evaluatedAll es
  | .variable n x => [.variable n x]
  | .functionCall n p as => .functionCall n p as :: evaluatedAll as
  | .arrayReference n p i => .arrayReference n p i :: (evaluatedParent p ++ i.evaluated)
  | .memberReference n p x o => [.memberReference n p x o]
  | .assign n t v => .assign n t v :: (t.evaluatedRef ++ v.evaluated)

def Expression.evaluatedRef : Expression → List Expression
  | .arrayReference _ p i => evaluatedParent p ++ i.evaluated
  | _ => []

def evaluatedAll : List Expression → List Expression
  | [] => []
  | e :: es => e.evaluated ++ evaluatedAll es

def evaluatedParent : Option Expression → List Expression
  | none => []
  | some p => p.evaluated

end

def Ptr.evaluated : Ptr Expression → List Expression
  | .to e => e.evaluated
  | _ => []

mutual

def Statement.evaluated : Statement → List Expression
  | .block ss => evaluatedIn ss
  | .transaction _ ss => evaluatedIn ss
  | .forStmt init cond every blk =>
    evaluatedInit init ++ (cond.evaluated ++ (every.evaluated ++ evaluatedIn blk))
  | .emit _ e => e.evaluated
  | .insert _ e _ => e.evaluated
  | .scan _ _ blk _ => evaluatedIn blk
  | .letStmt _ e _ => e.evaluated
  | .ifStmt cond ts fs => cond.evaluated ++ (evaluatedIn ts ++ evaluatedElse fs)
  | .exprStatement _ e => e.evaluated
  | _ => []

def evaluatedInit : Ptr Statement → List Expression
  | .to s => s.evaluated
  | _ => []

def evaluatedElse : Option (List Statement) → List Expression
  | some ss => evaluatedIn ss
  | none => []

def evaluatedIn : List Statement → List Expression
  | [] => []
  | s :: ss => s.evaluated ++ evaluatedIn ss

end

def Ptr.typedBy (check : Expression → Bool) : Ptr Expression → Bool
  | .to e => check e
  | _ => true

mutual

/-- Every expression of a statement is typed, a `Let` has the type of the slot its name stands
for, and the condition of a `For` is an `i1`. -/
def Statement.typed (Γ : TypeEnv) : Statement → Bool
  | .block ss => typedAll Γ ss
  | .transaction _ ss => typedAll Γ ss
  | .forStmt init cond every blk =>
    typedInit Γ init && (cond.typedBy (fun e => e.infer Γ == some .i1) &&
      (every.typedBy (fun e => (e.infer Γ).isSome) && typedAll Γ blk))
  | .emit _ e => (e.infer Γ).isSome
  | .insert _ e _ => (e.infer Γ).isSome
  | .scan _ _ blk _ => typedAll Γ blk
  | .letStmt x e _ => (e.infer Γ).isSome && e.infer Γ == Γ.slot x
  | .ifStmt cond ts fs => (cond.infer Γ).isSome && (typedAll Γ ts && typedElse Γ fs)
  | .exprStatement _ e => (e.infer Γ).isSome
  | _ => true

def typedInit (Γ : TypeEnv) : Ptr Statement → Bool
  | .to s => s.typed Γ
  | _ => true

def typedElse (Γ : TypeEnv) : Option (List Statement) → Bool
  | some ss => typedAll Γ ss
  | none => true

def typedAll (Γ : TypeEnv) : List Statement → Bool
  | [] => true
  | s :: ss => s.typed Γ && typedAll Γ ss

end

theorem Ctx.Emits.typeEnv_eq {c c' : Ctx} (h : Ctx.Emits c c') : c'.typeEnv = c.typeEnv := by
  have htables := congrArg Ctx.typeEnv h.tables_eq
  exact htables

theorem stringType_eq_ok {c c' : Ctx} {t : LLType} :
    stringType.run c = .ok (t, c') ↔ c.typeEnv.string = some t ∧ c = c' := by
  simp only [stringType, bind_eq_ok, get_eq_ok, require_eq_ok]
  constructor
  · rintro ⟨_, _, ⟨rfl, rfl⟩, h, rfl⟩
    exact ⟨h, rfl⟩
  · rintro ⟨h, rfl⟩
    exact ⟨c, c, ⟨rfl, rfl⟩, h, rfl⟩

theorem slot_eq_some {c : Ctx} {x : Text} {t : LLType} : c.typeEnv.slot x = some t ↔
    ∃ i, c.vars x = some (some i) ∧ c.slots[i]? = some t := by
  simp only [Ctx.typeEnv, Option.bind_eq_some_iff, Option.join_eq_some_iff]

theorem findVar_typed {c c' : Ctx} {x : Text} {p : LLValue} (h : (findVar x).run c = .ok (p, c')) :
    ∃ i t, p = slotPtr i t ∧ c.typeEnv.slot x = some t ∧ c' = c := by
  simp only [findVar, bind_eq_ok, get_eq_ok, require_eq_ok, pure_eq_ok] at h
  obtain ⟨_, _, ⟨rfl, rfl⟩, _, _, ⟨hvar, rfl⟩, i, _, ⟨rfl, rfl⟩, t, _, ⟨hslot, rfl⟩, rfl, rfl⟩ := h
  exact ⟨i, t, rfl, slot_eq_some.mpr ⟨i, hvar, hslot⟩, rfl⟩

theorem findVar_run {c : Ctx} {x : Text} {t : LLType} (h : c.typeEnv.slot x = some t) :
    ∃ i, (findVar x).run c = .ok (slotPtr i t, c) := by
  obtain ⟨i, hvar, hslot⟩ := slot_eq_some.mp h
  refine ⟨i, ?_⟩
  simp only [findVar, bind_eq_ok, get_eq_ok, require_eq_ok, pure_eq_ok]
  exact ⟨c, c, ⟨rfl, rfl⟩, some i, c, ⟨hvar, rfl⟩, i, c, ⟨rfl, rfl⟩, t, c, ⟨hslot, rfl⟩, rfl, rfl⟩

theorem convertType_eq_ok {c c' : Ctx} {n : NodeType} {t : LLType} :
    (convertType n).run c = .ok (t, c') ↔ c.typeEnv.convert n = some t ∧ c = c' := by
  unfold convertType TypeEnv.convert
  cases n.id with
  | string => exact stringType_eq_ok
  | _ => simp

/-- The type of a typed expression, as `get_type` computes it. -/
def HasGetType (Γ : TypeEnv) (e : Expression) (t : LLType) : Prop :=
  ∀ d : Ctx, d.typeEnv = Γ → ∃ d', e.getType.run d = .ok (t, d') ∧ d'.typeEnv = Γ

theorem getType_typeEnv {e : Expression} {t : LLType} {d d' : Ctx}
    (h : e.getType.run d = .ok (t, d')) : d'.typeEnv = d.typeEnv :=
  (emitsRules.getType e h).typeEnv_eq

theorem hasGetType_of {Γ : TypeEnv} {e : Expression} {t : LLType}
    (h : ∀ d : Ctx, d.typeEnv = Γ → ∃ d', e.getType.run d = .ok (t, d')) : HasGetType Γ e t := by
  intro d hd
  obtain ⟨d', hrun⟩ := h d hd
  exact ⟨d', hrun, (getType_typeEnv hrun).trans hd⟩

theorem inferAll_getTypes_of {Γ : TypeEnv} {es : List Expression} {ts : List LLType}
    (h : ∀ e ∈ es, ∀ t, e.infer Γ = some t → HasGetType Γ e t) (hts : inferAll Γ es = some ts)
    {d : Ctx} (hd : d.typeEnv = Γ) : ∃ d', (getTypes es).run d = .ok (ts, d') := by
  induction es generalizing ts d with
  | nil =>
    obtain rfl := Option.some.inj hts
    exact ⟨d, rfl⟩
  | cons e es ih =>
    rw [List.forall_mem_cons] at h
    obtain ⟨t, ht, hts⟩ := Option.bind_eq_some_iff.mp hts
    obtain ⟨ts', hts', hret⟩ := Option.bind_eq_some_iff.mp hts
    obtain rfl := Option.some.inj hret
    obtain ⟨d₁, h₁, hd₁⟩ := h.1 t ht d hd
    obtain ⟨d₂, h₂⟩ := ih h.2 hts' hd₁
    exact ⟨d₂, bind_eq_ok.mpr ⟨t, d₁, h₁, bind_eq_ok.mpr ⟨ts', d₂, h₂, rfl⟩⟩⟩

theorem inferAll_length {Γ : TypeEnv} {es : List Expression} {ts : List LLType}
    (h : inferAll Γ es = some ts) : ts.length = es.length := by
  induction es generalizing ts with
  | nil =>
    obtain rfl := Option.some.inj h
    rfl
  | cons e es ih =>
    obtain ⟨t, -, h⟩ := Option.bind_eq_some_iff.mp h
    obtain ⟨ts', hts', hret⟩ := Option.bind_eq_some_iff.mp h
    obtain rfl := Option.some.inj hret
    simp [ih hts']

theorem operatorType_eq {op : Operators} {l r t : LLType} (h : operatorType op l r = some t) :
    l = t ∧ r = t := by
  unfold operatorType at h
  split_ifs at h with ha heq hi
  · obtain rfl := Option.some.inj h
    exact ⟨rfl, heq.symm⟩
  · obtain rfl := Option.some.inj h
    exact hi

theorem Expression.infer_getType {Γ : TypeEnv} (e : Expression) {t : LLType}
    (h : e.infer Γ = some t) : HasGetType Γ e t := by
  induction e using Expression.induction generalizing t with
  | primary n v =>
    apply hasGetType_of
    intro d hd
    match v, h with
    | some (.int _), h => exact ⟨d, by obtain rfl := Option.some.inj h; rfl⟩
    | some (.varchar _), h => exact ⟨d, stringType_eq_ok.mpr ⟨by rw [hd]; exact h, rfl⟩⟩
  | binary n l op r hl hr =>
    apply hasGetType_of
    intro d hd
    obtain ⟨lt, hlt, h⟩ := Option.bind_eq_some_iff.mp h
    obtain ⟨rt, hrt, h⟩ := Option.bind_eq_some_iff.mp h
    obtain ⟨rfl, rfl⟩ := operatorType_eq h
    obtain ⟨d₁, h₁, hd₁⟩ := hr hrt d hd
    obtain ⟨d₂, h₂, hd₂⟩ := hl hlt d₁ hd₁
    exact ⟨d₂, bind_eq_ok.mpr ⟨_, d₁, h₁, bind_eq_ok.mpr ⟨_, d₂, h₂, by simp⟩⟩⟩
  | pointerOf n p hp =>
    apply hasGetType_of
    intro d hd
    obtain ⟨u, hu, rfl⟩ := Option.map_eq_some_iff.mp h
    obtain ⟨d₁, h₁, -⟩ := hp hu d hd
    exact ⟨d₁, bind_eq_ok.mpr ⟨u, d₁, h₁, rfl⟩⟩
  | rowLiteral n es hes =>
    apply hasGetType_of
    intro d hd
    obtain ⟨ts, hts, h⟩ := Option.bind_eq_some_iff.mp h
    obtain ⟨d₁, h₁⟩ := inferAll_getTypes_of (fun e he t => hes e he) hts hd
    unfold rowLiteralType at h
    split_ifs at h
    obtain rfl := Option.some.inj h
    exact ⟨_, bind_eq_ok.mpr ⟨ts, d₁, h₁, rfl⟩⟩
  | arrayLiteral n es hes =>
    apply hasGetType_of
    intro d hd
    obtain ⟨ts, hts, h⟩ := Option.bind_eq_some_iff.mp h
    cases es with
    | nil =>
      obtain rfl := Option.some.inj hts
      simp [arrayLiteralOf] at h
    | cons e es =>
      obtain ⟨u, hu, hts⟩ := Option.bind_eq_some_iff.mp hts
      obtain ⟨us, hus, hret⟩ := Option.bind_eq_some_iff.mp hts
      obtain rfl := Option.some.inj hret
      simp only [arrayLiteralOf] at h
      split_ifs at h
      obtain rfl := Option.some.inj h
      obtain ⟨d₁, h₁, -⟩ := hes e List.mem_cons_self hu d hd
      refine ⟨d₁, bind_eq_ok.mpr ⟨u, d₁, h₁, ?_⟩⟩
      rw [inferAll_length hus]
      rfl
  | variableRef n x =>
    apply hasGetType_of
    intro d hd
    obtain ⟨i, hi⟩ := findVar_run (c := d) (x := x) (t := t) (by rw [hd]; exact h)
    exact ⟨d, bind_eq_ok.mpr ⟨_, d, hi, rfl⟩⟩
  | functionCall n p as _ has =>
    apply hasGetType_of
    intro d hd
    obtain ⟨ts, -, h⟩ := Option.bind_eq_some_iff.mp h
    unfold calleeType at h
    split at h
    · exact ⟨d, bind_eq_ok.mpr ⟨_, d, rfl, require_eq_ok.mpr ⟨h, rfl⟩⟩⟩
    · simp at h
  | arrayReference n p i hp hi =>
    apply hasGetType_of
    intro d hd
    obtain ⟨pt, hpt, h⟩ := Option.bind_eq_some_iff.mp h
    obtain ⟨it, -, h⟩ := Option.bind_eq_some_iff.mp h
    cases p with
    | none => simp [inferParent] at hpt
    | some p =>
      obtain ⟨d₁, h₁, -⟩ := hp p rfl hpt d hd
      cases pt with
      | array u m =>
        obtain rfl := Option.some.inj h
        exact ⟨d₁, bind_eq_ok.mpr ⟨_, d₁, h₁, rfl⟩⟩
      | _ => simp [elementOf] at h
  | memberReference n p x o hp =>
    apply hasGetType_of
    intro d hd
    obtain ⟨f, hf, h⟩ := Option.bind_eq_some_iff.mp h
    obtain ⟨u, hu, h⟩ := Option.bind_eq_some_iff.mp h
    split_ifs at h with huf
    obtain rfl := Option.some.inj h
    obtain ⟨nt, hnt, hconv⟩ := Option.bind_eq_some_iff.mp hu
    refine ⟨d, bind_eq_ok.mpr ⟨nt, d, require_eq_ok.mpr ⟨hnt, rfl⟩, ?_⟩⟩
    exact convertType_eq_ok.mpr ⟨by rw [hd, hconv, huf], rfl⟩
  | assign n p v hp hv =>
    obtain ⟨u, hu, h⟩ := Option.bind_eq_some_iff.mp h
    obtain ⟨vt, hvt, h⟩ := Option.bind_eq_some_iff.mp h
    split_ifs at h with heq
    obtain rfl := Option.some.inj h
    exact hv (heq ▸ hvt)

end Reir
