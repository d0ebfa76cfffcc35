import Reir.InsertedRows

/-! The types of the slots. The allocation pass gives each name the slot of the statement that has
bound it last, with the type that `get_type` had there; what it has come to at the end can be read
from the program alone. -/
namespace Reir
open Gen

/-- What the types of the slots are made of: the types bound to the names, the number of the next
`Scan`, and the tables. -/
@[ext] structure SlotTypes where
  env : TypeEnv
  scans : ℕ
  tables : Tables

def Ctx.slotTypes (c : Ctx) : SlotTypes := ⟨c.typeEnv, c.scans, c.created⟩

def TypeEnv.bindSlot (Γ : TypeEnv) (x : Text) (t : Option LLType) : TypeEnv :=
  { Γ with slot := Function.update Γ.slot x t }

namespace SlotTypes
variable (A : SlotTypes)

def define (t : Option (Text × List Attribute)) : SlotTypes := { A with tables := A.tables ++ t.toList }

def bindLet (x : Text) (e : Expression) : SlotTypes := { A with env := A.env.bindSlot x (e.typeIn A.env) }

/-- The row type of a `Scan` is also entered into the table of types under the name of the row,
where the type of strings is found. -/
def bindRow (r : Text) (s : Schema) : SlotTypes :=
  let t := LLType.scanRow A.scans (s.attrs.map fun _ => .i64)
  { env := { A.env.bindSlot r (some t) with string := if r = text "string" then some t else A.env.string }
    scans := A.scans+1
    tables := A.tables }

def bindScan (table r : Text) : SlotTypes := ((lastTable A.tables table).map (A.bindRow r)).getD A

end SlotTypes

mutual

/-- The types behind `alloca_stack` of a statement. -/
def Statement.typesAfter (A : SlotTypes) : Statement → SlotTypes
  | .define schema name => A.define (Statement.define schema name).table
  | .forStmt init _ _ _ => typesAfterInit A init
  | .scan table r _ _ => A.bindScan table r
  | .letStmt x e _ => A.bindLet x e
  | _ => A

def typesAfterInit (A : SlotTypes) : Ptr Statement → SlotTypes
  | .to s => s.typesAfter A
  | _ => A

end

mutual

/-- The types behind a statement and what it contains; the init part of a `For` counts twice. -/
def Statement.typesBehind (A : SlotTypes) : Statement → SlotTypes
  | .block ss => typesBehindAll A ss
  | .transaction _ ss => typesBehindAll A ss
  | .forStmt init _ _ blk => typesBehindAll (typesAfterInit (typesAfterInit A init) init) blk
  | .scan table r blk _ => typesBehindAll (A.bindScan table r) blk
  | .ifStmt _ ts fs => typesBehindElse (typesBehindAll A ts) fs
  | s => s.typesAfter A

def typesBehindElse (A : SlotTypes) : Option (List Statement) → SlotTypes
  | some ss => typesBehindAll A ss
  | none => A

def typesBehindAll (A : SlotTypes) : List Statement → SlotTypes
  | [] => A
  | s :: ss => typesBehindAll (s.typesBehind A) ss

end

def SlotTypes.initial : SlotTypes := Ctx.initial.slotTypes

/-- The schemas are those of the tables, and a name is bound to a slot that exists. -/
structure Tracked (c : Ctx) : Prop where
  catalogued : Catalogued c
  bound : ∀ x i, c.vars x = some (some i) → i < c.slots.length

/-- A step that changes the types of the slots in this way. -/
def Gen.Tracks {α : Type} (f : SlotTypes → SlotTypes) (p : Gen α) : Prop :=
  ∀ ⦃c a c'⦄, p.run c = .ok (a, c') → Tracked c → Tracked c' ∧ c'.slotTypes = f c.slotTypes

namespace Gen
variable {α β : Type} {p : Gen α} {q : α → Gen β} {f g : SlotTypes → SlotTypes}

theorem Tracks.bind (hp : p.Tracks f) (hq : ∀ a, (q a).Tracks g) :
    (p >>= q).Tracks fun A => g (f A) := by
  intro c b c' h hc
  obtain ⟨a, c₁, h₁, h₂⟩ := bind_eq_ok.mp h
  obtain ⟨hc₁, hf⟩ := hp h₁ hc
  obtain ⟨hc', hg⟩ := hq a h₂ hc₁
  exact ⟨hc', by rw [hg, hf]⟩

theorem tracks_of_same (h : ∀ ⦃c a c'⦄, p.run c = .ok (a, c') →
      c'.schemas = c.schemas ∧ c'.created = c.created ∧ c'.vars = c.vars ∧ c'.slots = c.slots ∧
        c'.types = c.types ∧ c'.scans = c.scans) : p.Tracks id := by
  intro c a c' hrun hc
  obtain ⟨hs, hcreated, hv, hslots, ht, hscans⟩ := h hrun
  refine ⟨⟨hc.catalogued.of_eq hs hcreated, ?_⟩, ?_⟩
  · rw [hv, hslots]
    exact hc.bound
  · simp only [Ctx.slotTypes, Ctx.typeEnv, hcreated, hv, hslots, ht, hscans, id_eq]

end Gen

theorem newSlot_typeEnv {c : Ctx} (hc : Tracked c) (ty : LLType) :
    (c.newSlot ty).typeEnv = c.typeEnv := by
  have hslot : ∀ x, (c.newSlot ty).typeEnv.slot x = c.typeEnv.slot x := by
    intro x
    change ((c.vars x).join.bind fun i => (c.slots ++ [ty])[i]?) = (c.vars x).join.bind fun i => c.slots[i]?
    cases hx : (c.vars x).join with
    | none => rfl
    | some i =>
      have hi := hc.bound x i (Option.join_eq_some_iff.mp hx)
      exact List.getElem?_append_left hi
  exact congrArg (fun slot => (⟨slot, c.types (text "string")⟩ : TypeEnv)) (funext hslot)

theorem tracked_newSlot {c : Ctx} (hc : Tracked c) (ty : LLType) : Tracked (c.newSlot ty) where
  catalogued := Catalogued.of_eq (c := c) rfl rfl hc.catalogued
  bound := by
    intro x i hx
    have hi := hc.bound x i hx
    have hlength : (c.newSlot ty).slots.length = c.slots.length+1 := List.length_append
    omega

theorem tracksRules : AllocaRules (Gen.Tracks id) where
  pure := fun a => tracks_of_same fun c b c' h => by
    obtain ⟨-, rfl⟩ := pure_eq_ok.mp h
    exact ⟨rfl, rfl, rfl, rfl, rfl, rfl⟩
  fail := fun e => tracks_of_same fun c b c' h => absurd h (by simp)
  get := tracks_of_same fun c b c' h => by
    obtain ⟨-, rfl⟩ := get_eq_ok.mp h
    exact ⟨rfl, rfl, rfl, rfl, rfl, rfl⟩
  require := fun e o => tracks_of_same fun c b c' h => by
    obtain ⟨-, rfl⟩ := require_eq_ok.mp h
    exact ⟨rfl, rfl, rfl, rfl, rfl, rfl⟩
  bind := fun hp hq => hp.bind hq
  registerRow := fun ts => tracks_of_same fun c b c' h => by
    obtain ⟨_, c₁, h₁, h₂⟩ := bind_eq_ok.mp h
    obtain ⟨-, rfl⟩ := pure_eq_ok.mp h₂
    obtain rfl := modify_eq_ok.mp h₁
    split_ifs
    · exact ⟨rfl, rfl, rfl, rfl, rfl, rfl⟩
    · exact ⟨rfl, rfl, rfl, rfl, rfl, rfl⟩
  createAlloca := by
    intro ty c i c' h hc
    obtain ⟨-, rfl⟩ := createAlloca_eq_ok.mp h
    refine ⟨tracked_newSlot hc ty, ?_⟩
    rw [Ctx.slotTypes, newSlot_typeEnv hc ty]
    rfl

theorem Gen.Tracks.map {α β : Type} {p : Gen α} {f : SlotTypes → SlotTypes} (hp : p.Tracks f)
    (g : α → β) : (p >>= fun a => Pure.pure (g a)).Tracks f :=
  hp.bind fun a => tracksRules.pure (g a)

end Reir
