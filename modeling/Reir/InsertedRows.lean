import Reir.TableUses
import Reir.TypeRules

/-! The rows of `Insert`. The loop of `Insert::codegen` runs over the fields of the row and looks up
the columns of the table by their index; nothing compares the two. -/
namespace Reir
open Gen

mutual

/-- The type that `get_type` returns. -/
def Expression.typeIn (Γ : TypeEnv) : Expression → Option LLType
  | .primary _ (some (.int _)) => some .i64
  | .primary _ (some (.varchar _)) => Γ.string
  | .primary _ (some (.float _)) => some .double
  | .primary _ (some .unknown) => none
  | .primary _ none => some .i32
  | .binary _ l _ r => do
    let rt ← r.typeIn Γ
    let lt ← l.typeIn Γ
    if rt ≠ lt then none else some rt
  | .pointerOf _ t => do
    let t ← t.typeIn Γ
    pure (.ptr t)
  | .rowLiteral _ es => do
    let ts ← typesIn Γ es
    pure (.row ts)
  | .arrayLiteral _ [] => none
  | .arrayLiteral _ (e :: es) => do
    let t ← e.typeIn Γ
    pure (.array t (es.length+1))
  | .variable _ x => Γ.slot x
  | .functionCall _ p _ => calleeType p
  | .arrayReference _ none _ => none
  | .arrayReference _ (some p) _ => do
    let t ← p.typeIn Γ
    elementOf t
  | .memberReference n _ _ _ => do
    let t ← n.type
    Γ.convert t
  | .assign _ _ v => v.typeIn Γ

def typesIn (Γ : TypeEnv) : List Expression → Option (List LLType)
  | [] => some []
  | e :: es => do
    let t ← e.typeIn Γ
    let ts ← typesIn Γ es
    pure (t :: ts)

end

/-- A step that only depends on the types of the slots and of strings, and keeps them. -/
structure Gen.Computes {α : Type} (p : Gen α) (f : TypeEnv → Option α) : Prop where
  typeEnv : ∀ ⦃d a d'⦄, p.run d = .ok (a, d') → d'.typeEnv = d.typeEnv
  ok_iff : ∀ d a, (∃ d', p.run d = .ok (a, d')) ↔ f d.typeEnv = some a

namespace Gen
variable {α β : Type}

theorem Computes.bind {p : Gen α} {q : α → Gen β} {f : TypeEnv → Option α}
    {g : α → TypeEnv → Option β} (hp : p.Computes f) (hq : ∀ a, (q a).Computes (g a)) :
    (p >>= q).Computes fun Γ => (f Γ).bind fun a => g a Γ where
  typeEnv := by
    intro d b d' h
    obtain ⟨a, d₁, h₁, h₂⟩ := bind_eq_ok.mp h
    rw [(hq a).typeEnv h₂, hp.typeEnv h₁]
  ok_iff := by
    intro d b
    rw [Option.bind_eq_some_iff]
    constructor
    · rintro ⟨d', h⟩
      obtain ⟨a, d₁, h₁, h₂⟩ := bind_eq_ok.mp h
      refine ⟨a, (hp.ok_iff d a).mp ⟨d₁, h₁⟩, ?_⟩
      rw [← hp.typeEnv h₁]
      exact ((hq a).ok_iff d₁ b).mp ⟨d', h₂⟩
    · rintro ⟨a, ha, hb⟩
      obtain ⟨d₁, h₁⟩ := (hp.ok_iff d a).mpr ha
      rw [← hp.typeEnv h₁] at hb
      obtain ⟨d', h₂⟩ := ((hq a).ok_iff d₁ b).mpr hb
      exact ⟨d', bind_eq_ok.mpr ⟨a, d₁, h₁, h₂⟩⟩

theorem computes_pure (a : α) : (Pure.pure a : Gen α).Computes fun _ => some a where
  typeEnv := by
    intro d b d' h
    rw [(pure_eq_ok.mp h).2]
  ok_iff := by
    intro d b
    simp

theorem computes_fail (e : CompileError) : (fail e : Gen α).Computes fun _ => none where
  typeEnv := by
    intro d b d' h
    exact absurd h (by simp)
  ok_iff := by
    intro d b
    simp

theorem computes_require (e : CompileError) (o : Option α) : (require e o).Computes fun _ => o := by
  cases o with
  | none => exact computes_fail e
  | some a => exact computes_pure a

end Gen

theorem computes_stringType : stringType.Computes TypeEnv.string where
  typeEnv := by
    intro d t d' h
    rw [(stringType_eq_ok.mp h).2]
  ok_iff := by
    intro d t
    simp [stringType_eq_ok]

theorem computes_convertType (n : NodeType) : (convertType n).Computes fun Γ => Γ.convert n where
  typeEnv := by
    intro d t d' h
    rw [(convertType_eq_ok.mp h).2]
  ok_iff := by
    intro d t
    simp [convertType_eq_ok]

theorem computes_variable (x : Text) :
    (findVar x >>= fun p => pointee p.ty).Computes fun Γ => Γ.slot x where
  typeEnv := by
    intro d t d' h
    obtain ⟨p, d₁, h₁, h₂⟩ := bind_eq_ok.mp h
    obtain ⟨i, u, rfl, -, rfl⟩ := findVar_typed h₁
    rw [(pure_eq_ok.mp h₂).2]
  ok_iff := by
    intro d t
    constructor
    · rintro ⟨d', h⟩
      obtain ⟨p, d₁, h₁, h₂⟩ := bind_eq_ok.mp h
      obtain ⟨i, u, rfl, hslot, rfl⟩ := findVar_typed h₁
      rw [hslot, (pure_eq_ok.mp h₂).1]
    · intro h
      obtain ⟨i, hrun⟩ := findVar_run h
      exact ⟨d, bind_eq_ok.mpr ⟨_, d, hrun, rfl⟩⟩

theorem computes_registerRow (ts : List LLType) : (registerRow ts).Computes fun _ => some (.row ts) where
  typeEnv := by
    intro d t d' h
    exact (emits_registerRow ts h).typeEnv_eq
  ok_iff := by
    intro d t
    constructor
    · rintro ⟨d', h⟩
      obtain ⟨_, d₁, -, hret⟩ := bind_eq_ok.mp h
      rw [(pure_eq_ok.mp hret).1]
    · intro h
      obtain rfl := Option.some.inj h
      exact ⟨_, bind_eq_ok.mpr ⟨(), _, rfl, rfl⟩⟩

theorem computes_getTypes_of {es : List Expression}
    (h : ∀ e ∈ es, e.getType.Computes fun Γ => e.typeIn Γ) :
    (getTypes es).Computes fun Γ => typesIn Γ es := by
  induction es with
  | nil => exact computes_pure _
  | cons e es ih =>
    rw [List.forall_mem_cons] at h
    exact h.1.bind fun t => (ih h.2).bind fun ts => computes_pure (t :: ts)

/-- `get_type` depends on nothing else. -/
theorem Expression.computes_getType (e : Expression) : e.getType.Computes fun Γ => e.typeIn Γ := by
  induction e using Expression.induction with
  | primary n v =>
    match v with
    | some (.int _) => exact computes_pure _
    | some (.varchar _) => exact computes_stringType
    | some (.float _) => exact computes_pure _
    | some .unknown => exact computes_fail _
    | none => exact computes_pure _
  | binary n l op r hl hr =>
    refine hr.bind fun rt => hl.bind fun lt => ?_
    split_ifs
    · exact computes_fail _
    · exact computes_pure rt
  | pointerOf n t ht => exact ht.bind fun t => computes_pure (LLType.ptr t)
  | rowLiteral n es hes => exact (computes_getTypes_of hes).bind computes_registerRow
  | arrayLiteral n es hes =>
    cases es with
    | nil => exact computes_fail _
    | cons e es =>
      exact (hes e List.mem_cons_self).bind fun t => computes_pure (LLType.array t (es.length+1))
  | variableRef n x => exact computes_variable x
  | functionCall n p as _ _ =>
    cases p with
    | «variable» n f => exact (computes_pure f).bind fun f => computes_require _ _
    | _ => exact (computes_fail _).bind fun f => computes_require _ (functionType f)
  | arrayReference n p i hp _ =>
    cases p with
    | none => exact computes_fail _
    | some p =>
      refine (hp p rfl).bind fun t => ?_
      cases t with
      | array t m => exact computes_pure t
      | _ => exact computes_fail _
  | memberReference n p x o _ => exact (computes_require _ _).bind computes_convertType
  | assign n t v _ hv => exact hv

/-- The types of the elements of a row. -/
def Expression.elementTypes (Γ : TypeEnv) : Expression → Option (List LLType)
  | .rowLiteral _ es => typesIn Γ es
  | e => (e.typeIn Γ).bind LLType.fields

end Reir
