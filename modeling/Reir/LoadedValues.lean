import Reir.TypedPrograms

/-! Values that are loads. `get_ref` is overridden by variables, member references and array references
only; all other forms return a null pointer. A member reference takes its parent for a variable without
a look, and an array reference takes the value of its parent for a load, which it is only for these forms
and for assignments. -/
namespace Reir
open Gen BlockGraph

def Ctx.Holds (d : Ctx) (i : Instr) : Prop := ∃ b, i ∈ d.graph.code b

/-- A pointer to a slot, to a field or to an element of what such a pointer points to. -/
inductive AddressIn (d : Ctx) (k : ℕ) : LLValue → Prop
  | slot {t : LLType} (ht : d.slots[k]? = some t) : AddressIn d k (slotPtr k t)
  | field {base : LLValue} {r o : ℕ} {t f : LLType} (hbase : AddressIn d k base)
      (hty : base.ty = .ptr t) (hf : t.fieldAt o = some f)
      (hgep : d.Holds (.gep r base [int32 0, int32 o])) : AddressIn d k ⟨.reg r, .ptr f⟩
  | element {base i : LLValue} {r n : ℕ} {t : LLType} (hbase : AddressIn d k base)
      (hty : base.ty = .ptr (.array t n)) (hi : i.ty.isInteger = true)
      (hgep : d.Holds (.gep r base [int64 0, i])) : AddressIn d k ⟨.reg r, .ptr t⟩

mutual

/-- The variable that a reference starts from. -/
def Expression.root : Expression → Option Text
  | .variable _ x => some x
  | .memberReference _ p _ _ => p.root
  | .arrayReference _ p _ => rootParent p
  | .assign _ t _ => t.root
  | _ => none

def rootParent : Option Expression → Option Text
  | some p => p.root
  | none => none

end

/-- An address inside of the slot that the variable of the reference stands for. -/
def PointsInto (d : Ctx) (e : Expression) (v : LLValue) : Prop :=
  ∃ x k, e.root = some x ∧ (d.vars x).join = some k ∧ AddressIn d k v

mutual

/-- The type of what the address of a reference points to. -/
def Expression.refType (Γ : TypeEnv) : Expression → Option LLType
  | .variable _ x => Γ.slot x
  | .memberReference _ p _ o => Γ.field p o
  | .arrayReference _ p _ => (loadTypeParent Γ p).bind elementOf
  | _ => none

/-- The type of a value that is loaded from such an address; the value of an assignment is loaded
from its target. -/
def Expression.loadType (Γ : TypeEnv) : Expression → Option LLType
  | .variable _ x => Γ.slot x
  | .memberReference _ p _ o => Γ.field p o
  | .arrayReference _ p _ => (loadTypeParent Γ p).bind elementOf
  | .assign _ t _ => t.refType Γ
  | _ => none

def loadTypeParent (Γ : TypeEnv) : Option Expression → Option LLType
  | some p => p.loadType Γ
  | none => none

end

attribute [local simp] Expression.root Expression.refType Expression.loadType

theorem Ctx.Holds.mono {d d' : Ctx} {i : Instr} (h : d.Holds i) (he : Ctx.Emits d d') : d'.Holds i := by
  obtain ⟨b, hi⟩ := h
  exact ⟨b, (he.grows.code_le b).subset hi⟩

theorem AddressIn.mono {d d' : Ctx} {k : ℕ} {v : LLValue} (h : AddressIn d k v)
    (he : Ctx.Emits d d') : AddressIn d' k v := by
  induction h with
  | slot ht => exact .slot (by rw [he.slots_eq, ht])
  | field _ hty hf hgep ih => exact .field ih hty hf (hgep.mono he)
  | element _ hty hi hgep ih => exact .element ih hty hi (hgep.mono he)

theorem PointsInto.mono {d d' : Ctx} {e : Expression} {v : LLValue} (h : PointsInto d e v)
    (he : Ctx.Emits d d') : PointsInto d' e v := by
  obtain ⟨x, k, hx, hk, hv⟩ := h
  exact ⟨x, k, hx, by rw [he.vars_eq, hk], hv.mono he⟩

/-- A value is known to be loaded from an address of its expression, or it is not a load. -/
def Loaded (Γ : TypeEnv) (d : Ctx) (e : Expression) (v : LLValue) : Prop :=
  (∃ r p t, v.op = .reg r ∧ r < d.nextReg ∧ d.loadOf r = some p ∧ e.loadType Γ = some t ∧
    p.ty = .ptr t ∧ PointsInto d e p) ∨ (Plain d v ∧ e.loadType Γ = none)

section
variable {Γ : TypeEnv} {d d' : Ctx} {e : Expression} {v : LLValue}

theorem Loaded.mono (h : Loaded Γ d e v) (he : Ctx.Emits d d') : Loaded Γ d' e v := by
  rcases h with ⟨r, p, t, hop, hr, hload, ht, hty, hp⟩ | ⟨hplain, ht⟩
  · exact .inl ⟨r, p, t, hop, hr.trans_le he.nextReg_le, by rw [he.loadOf_eq hr, hload], ht, hty,
      hp.mono he⟩
  · exact .inr ⟨hplain.mono he, ht⟩

/-- The pointer operand of a value that turns out to be a load. -/
theorem Loaded.pointer {r : ℕ} {p : LLValue} (h : Loaded Γ d e v) (hop : v.op = .reg r)
    (hload : d.loadOf r = some p) :
    ∃ t, e.loadType Γ = some t ∧ p.ty = .ptr t ∧ PointsInto d e p := by
  rcases h with ⟨s, q, t, hop', -, hload', ht, hty, hq⟩ | ⟨hplain, -⟩
  · obtain rfl := Op.reg.inj (hop.symm.trans hop')
    obtain rfl := Option.some.inj (hload.symm.trans hload')
    exact ⟨t, ht, hty, hq⟩
  · exact nomatch hload.symm.trans (hplain r hop).2

end

section
variable {Γ : TypeEnv}

end

end Reir
