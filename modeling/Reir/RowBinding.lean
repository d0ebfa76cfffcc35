import Reir.Emission
import Reir.Erasure

/-! The rows of `Scan`. Slots are allocated for the whole program before any code is generated
and are found by name, so a name stands for the slot that was allocated for it last. A `Scan`
stores its rows to the slot it has allocated itself. -/
namespace Reir
open Gen

mutual

/-- The variables an expression refers to. The callee of a call is not one. -/
def Expression.refs : Expression → List Text
  | .primary _ _ => []
  | .binary _ l _ r => l.refs ++ r.refs
  | .pointerOf _ t => t.refs
  | .rowLiteral _ es => refsAll es
  | .arrayLiteral _ es => refsAll es
  | .variable _ x => [x]
  | .functionCall _ _ as => refsAll as
  | .arrayReference _ p i => refsParent p ++ i.refs
  | .memberReference _ p _ _ => p.refs
  | .assign _ t v => t.refs ++ v.refs

def refsAll : List Expression → List Text
  | [] => []
  | e :: es => e.refs ++ refsAll es

def refsParent : Option Expression → List Text
  | none => []
  | some p => p.refs

end

def Ptr.refs : Ptr Expression → List Text
  | .to e => e.refs
  | _ => []

/-- The names a statement binds for the statements behind it. -/
def Statement.bound : Statement → List Text
  | .letStmt x _ _ => [x]
  | _ => []

def boundInit : Ptr Statement → List Text
  | .to s => s.bound
  | _ => []

mutual

/-- The names a statement refers to without binding them itself. -/
def Statement.free : Statement → List Text
  | .block ss => freeAll ss
  | .transaction _ ss => freeAll ss
  | .forStmt init cond every blk =>
    freeInit init ++ (cond.refs ++ every.refs ++ freeAll blk).filter (· ∉ boundInit init)
  | .emit _ e => e.refs
  | .insert _ e _ => e.refs
  | .scan _ r blk _ => (freeAll blk).filter (· ≠ r)
  | .letStmt _ e _ => e.refs
  | .ifStmt cond ts fs => cond.refs ++ freeAll ts ++ freeElse fs
  | .exprStatement _ e => e.refs
  | _ => []

def freeInit : Ptr Statement → List Text
  | .to s => s.free
  | _ => []

def freeElse : Option (List Statement) → List Text
  | some ss => freeAll ss
  | none => []

def freeAll : List Statement → List Text
  | [] => []
  | s :: ss => s.free ++ (freeAll ss).filter (· ∉ s.bound)

end

/-- A reference to `r` resolves to the slot that the `Scan` with this frame stores its rows to,
with a row type of a `Scan`. -/
def RowResolves (c : Ctx) (r : Text) (frame : ScanFrame) : Prop :=
  ∃ p id ts, (findVar r).run c = .ok (p, c) ∧ (slotOf frame.tupleStack).run c = .ok (p, c) ∧
    p.ty = .ptr (.scanRow id ts)

mutual

/-- In a program with its slots: every reference to a row name whose innermost binder is a
`Scan` resolves to the row of that `Scan`. -/
def Statement.RowsResolve (c : Ctx) : Statement → Prop
  | .block ss => RowsResolveAll c ss
  | .transaction _ ss => RowsResolveAll c ss
  | .forStmt init _ _ blk => RowsResolveInit c init ∧ RowsResolveAll c blk
  | .scan _ r blk frame => (r ∈ freeAll blk → RowResolves c r frame) ∧ RowsResolveAll c blk
  | .ifStmt _ ts fs => RowsResolveAll c ts ∧ RowsResolveElse c fs
  | _ => True

def RowsResolveInit (c : Ctx) : Ptr Statement → Prop
  | .to s => s.RowsResolve c
  | _ => True

def RowsResolveElse (c : Ctx) : Option (List Statement) → Prop
  | some ss => RowsResolveAll c ss
  | none => True

def RowsResolveAll (c : Ctx) : List Statement → Prop
  | [] => True
  | s :: ss => s.RowsResolve c ∧ RowsResolveAll c ss

end

mutual

/-- The names that `alloca_stack` of a statement binds. -/
def Statement.allocated : Statement → List Text
  | .forStmt init _ _ _ => allocatedInit init
  | .scan _ r _ _ => [r]
  | .letStmt x _ _ => [x]
  | _ => []

def allocatedInit : Ptr Statement → List Text
  | .to s => s.allocated
  | _ => []

end

mutual

/-- The names that the allocation pass binds for a statement and what it contains. -/
def Statement.binders : Statement → List Text
  | .block ss => bindersAll ss
  | .transaction _ ss => bindersAll ss
  | .forStmt init _ _ blk => allocatedInit init ++ bindersAll blk
  | .scan _ r blk _ => r :: bindersAll blk
  | .letStmt x _ _ => [x]
  | .ifStmt _ ts fs => bindersAll ts ++ bindersElse fs
  | _ => []

def bindersElse : Option (List Statement) → List Text
  | some ss => bindersAll ss
  | none => []

def bindersAll : List Statement → List Text
  | [] => []
  | s :: ss => s.binders ++ bindersAll ss

end

mutual

/-- Every `Scan` that some reference in its body is bound to is the last one to bind its row
name: neither its body nor what is allocated behind it, with the names `after` at the end,
binds it again. -/
def Statement.rowsLast (after : List Text) : Statement → Bool
  | .block ss => rowsLastAll after ss
  | .transaction _ ss => rowsLastAll after ss
  | .forStmt init _ _ blk => rowsLastInit (bindersAll blk ++ after) init && rowsLastAll after blk
  | .scan _ r blk _ =>
    (decide (r ∈ freeAll blk → r ∉ bindersAll blk ++ after)) && rowsLastAll after blk
  | .ifStmt _ ts fs => rowsLastAll (bindersElse fs ++ after) ts && rowsLastElse after fs
  | _ => true

def rowsLastInit (after : List Text) : Ptr Statement → Bool
  | .to s => s.rowsLast after
  | _ => true

def rowsLastElse (after : List Text) : Option (List Statement) → Bool
  | some ss => rowsLastAll after ss
  | none => true

def rowsLastAll (after : List Text) : List Statement → Bool
  | [] => true
  | s :: ss => s.rowsLast (bindersAll ss ++ after) && rowsLastAll after ss

end

mutual

/-- The `Scan` statements are as their constructor leaves them. -/
def Statement.fresh : Statement → Bool
  | .block ss => freshAll ss
  | .transaction _ ss => freshAll ss
  | .forStmt init _ _ blk => freshInit init && freshAll blk
  | .scan _ _ blk frame => decide (frame = {}) && freshAll blk
  | .ifStmt _ ts fs => freshAll ts && freshElse fs
  | _ => true

def freshInit : Ptr Statement → Bool
  | .to s => s.fresh
  | _ => true

def freshElse : Option (List Statement) → Bool
  | some ss => freshAll ss
  | none => true

def freshAll : List Statement → Bool
  | [] => true
  | s :: ss => s.fresh && freshAll ss

end

/-- Slots are added, exactly the names in the list are bound, and each of them to a new slot. -/
structure Binds (names : List Text) (c c' : Ctx) : Prop where
  slots_le : c.slots <+: c'.slots
  bound : ∀ x ∈ names, ∃ slot, c.slots.length ≤ slot ∧ c'.vars x = some (some slot)
  other : ∀ x ∉ names, c'.vars x = c.vars x

theorem Binds.trans {xs ys : List Text} {a b c : Ctx} (h : Binds xs a b) (k : Binds ys b c) :
    Binds (xs ++ ys) a c where
  slots_le := h.slots_le.trans k.slots_le
  bound := by
    intro x hx
    by_cases hy : x ∈ ys
    · obtain ⟨slot, hle, hvar⟩ := k.bound x hy
      exact ⟨slot, h.slots_le.length_le.trans hle, hvar⟩
    · have hx : x ∈ xs := by simpa [hy] using hx
      obtain ⟨slot, hle, hvar⟩ := h.bound x hx
      exact ⟨slot, hle, (k.other x hy).trans hvar⟩
  other := by
    intro x hx
    rw [List.mem_append, not_or] at hx
    rw [k.other x hx.2, h.other x hx.1]

theorem Binds.congr {xs ys : List Text} {a b : Ctx} (h : Binds xs a b)
    (hmem : ∀ x, x ∈ ys ↔ x ∈ xs) : Binds ys a b where
  slots_le := h.slots_le
  bound := fun x hx => h.bound x ((hmem x).mp hx)
  other := fun x hx => h.other x fun hx' => hx ((hmem x).mpr hx')

theorem binds_of_eq {a b : Ctx} (hs : a.slots <+: b.slots) (hv : b.vars = a.vars) :
    Binds [] a b where
  slots_le := hs
  bound := by simp
  other := by simp [hv]

/-- A slot of its own for a name. -/
theorem binds_setVar (c : Ctx) (x : Text) (ty : LLType) :
    Binds [x] c ((c.newSlot ty).setVar x (some c.slots.length)) where
  slots_le := List.prefix_append _ _
  bound := by
    intro y hy
    rw [List.mem_singleton] at hy
    exact ⟨c.slots.length, le_rfl, by simp [hy, Ctx.setVar]⟩
  other := by
    intro y hy
    rw [List.mem_singleton] at hy
    simp [Ctx.setVar, hy, Ctx.newSlot, Ctx.append]

/-- The last binder of a name is the one it stands for. -/
theorem Binds.var_iff {names : List Text} {c c' : Ctx} (h : Binds names c c') {x : Text} {slot : ℕ}
    (hslot : slot < c.slots.length) (hvar : c.vars x = some (some slot)) :
    c'.vars x = some (some slot) ↔ x ∉ names := by
  constructor
  · intro hx hmem
    obtain ⟨slot', hle, hvar'⟩ := h.bound x hmem
    rw [hx] at hvar'
    simp only [Option.some.injEq] at hvar'
    omega
  · intro hx
    rw [h.other x hx, hvar]

def Gen.Binds {α : Type} (p : Gen α) (names : List Text) : Prop :=
  ∀ ⦃c a c'⦄, p.run c = .ok (a, c') → Reir.Binds names c c'

namespace Gen
variable {α β : Type} {p : Gen α} {f : α → Gen β} {xs ys : List Text}

theorem Binds.bind (hp : p.Binds xs) (hf : ∀ a, (f a).Binds ys) : (p >>= f).Binds (xs ++ ys) := by
  intro c b c' h
  obtain ⟨a, c₁, h₁, h₂⟩ := bind_eq_ok.mp h
  exact (hp h₁).trans (hf a h₂)

theorem binds_of_emits (hp : p.Emits) : p.Binds [] := by
  intro c a c' h
  have hemits := hp h
  exact binds_of_eq (by rw [hemits.slots_eq]) hemits.vars_eq

theorem binds_modify {g : Ctx → Ctx} (hs : ∀ c, (g c).slots = c.slots)
    (hv : ∀ c, (g c).vars = c.vars) : (modify g).Binds [] := by
  intro c u c' h
  obtain rfl := modify_eq_ok.mp h
  exact binds_of_eq (by rw [hs]) (hv c)

end Gen

theorem bindsRules : AllocaRules fun p => p.Binds [] where
  pure := fun a => binds_of_emits (emits_pure a)
  fail := fun e => binds_of_emits (emits_fail e)
  get := binds_of_emits emits_get
  require := fun e o => binds_of_emits (emits_require e o)
  bind := Gen.Binds.bind
  registerRow := fun ts => binds_of_emits (emits_registerRow ts)
  createAlloca := by
    intro ty c n c' h
    obtain ⟨-, rfl⟩ := createAlloca_eq_ok.mp h
    exact binds_of_eq (List.prefix_append _ _) rfl

theorem binds_defineTable (schema : Option NodeType) (name : Text) :
    (defineTable schema name).Binds [] := by
  unfold defineTable
  split
  · exact (bindsRules.defineAttrs _ _ _ _).bind fun _ =>
      (binds_modify (by intro _; rfl) (by intro _; rfl)).bind fun _ =>
        binds_modify (by intro _; rfl) (by intro _; rfl)
  · exact bindsRules.fail _

/-- What `Scan::alloca_stack` leaves behind: it has run only once, and the row name stands for
the slot of the `Scan`, which has its row type. -/
theorem allocaScan_spec {table r : Text} {frame frame' : ScanFrame} {c c' : Ctx}
    (h : (allocaScan table r frame).run c = .ok (frame', c')) :
    frame.keyStack = none ∧ frame'.keyStack ≠ none ∧ Binds [r] c c' ∧
      ∃ slot id ts, frame'.tupleStack = some slot ∧ c'.vars r = some (some slot) ∧
        c'.slots[slot]? = some (.scanRow id ts) := by
  simp only [allocaScan, bind_eq_ok, pure_eq_ok, createAlloca_eq_ok, modify_eq_ok] at h
  obtain ⟨s, c₁, hschema, areas, c₂, hareas, ts, c₃, hcolumns, t, c₄, hrow, slot, c₅, ⟨rfl, rfl⟩,
    _, _, rfl, rfl, rfl⟩ := h
  have hkey : frame.keyStack = none := by
    unfold allocaRecord at hareas
    split_ifs at hareas with hlen hkey
    · simp at hareas
    · simp at hareas
    · simpa using hkey
  simp only [createScanRow, Except.ok.injEq, Prod.mk.injEq] at hrow
  obtain ⟨rfl, rfl⟩ := hrow
  have h₁ := bindsRules.lookupSchema _ _ hschema
  have h₂ := bindsRules.allocaRecord _ _ hareas
  have h₃ := bindsRules.scanColumns _ hcolumns
  have h₄ : Binds [] c₃ { c₃.setType r (.scanRow c₃.scans ts) with scans := c₃.scans+1 } :=
    binds_of_eq List.prefix_rfl rfl
  refine ⟨hkey, by simp, ?_, _, c₃.scans, ts, rfl, by simp [Ctx.setVar], ?_⟩
  · exact (((h₁.trans h₂).trans h₃).trans h₄).trans (binds_setVar _ r _)
  · simp [Ctx.setVar, Ctx.newSlot]

theorem binds_letAlloca (name : Text) (e : Expression) (type : Option NodeType) :
    (Statement.letStmt name e type).allocaStack.Binds [name] := by
  intro c s' c' h
  simp only [Statement.allocaStack, bind_eq_ok, pure_eq_ok, createAlloca_eq_ok, modify_eq_ok] at h
  obtain ⟨t, c₁, htype, slot, _, ⟨rfl, rfl⟩, _, _, rfl, -, rfl⟩ := h
  exact (bindsRules.getType e htype).trans (binds_setVar c₁ name t)

theorem Statement.binds_allocaStack (s : Statement) : s.allocaStack.Binds s.allocated := by
  have hpure : ∀ s : Statement, (Pure.pure s : Gen Statement).Binds [] := bindsRules.pure
  induction s using Statement.induction with
  | block ss _ => exact hpure _
  | transaction isolation ss _ => exact hpure _
  | define schema name => exact (binds_defineTable _ _).bind fun _ => hpure _
  | forStmt init cond every blk hinit _ =>
    have hinit' : (allocaInit init).Binds (allocatedInit init) :=
      match init, hinit with
      | .null, _ => bindsRules.pure _
      | .uninit, _ => bindsRules.fail _
      | .to s, hinit => by
        have hs := (hinit s rfl).bind fun s' => bindsRules.pure (Ptr.to s')
        rwa [List.append_nil] at hs
    have h := hinit'.bind fun init' => hpure (.forStmt init' cond every blk)
    rwa [List.append_nil] at h
  | jump t => exact hpure _
  | emit stack e =>
    exact (bindsRules.getType e).bind fun _ => (bindsRules.createAlloca _).bind fun _ => hpure _
  | insert table e frame => exact (bindsRules.allocaInsert _ _ _).bind fun _ => hpure _
  | scan table r blk frame _ =>
    intro c s' c' h
    obtain ⟨frame', c₁, hscan, hret⟩ := bind_eq_ok.mp h
    obtain ⟨-, rfl⟩ := pure_eq_ok.mp hret
    exact (allocaScan_spec hscan).2.2.1
  | letStmt name e type => exact binds_letAlloca name e type
  | defineTuple name type =>
    exact (binds_modify (by intro _; rfl) (by intro _; rfl)).bind fun _ => hpure _
  | ifStmt cond ts fs _ _ => exact hpure _
  | exprStatement stack e =>
    exact (bindsRules.spill _ _).bind fun _ => (bindsRules.eachValue e _).bind fun _ => hpure _

theorem refsAll_erase_of {es : List Expression} (h : ∀ e ∈ es, e.erase.refs = e.refs) :
    refsAll (eraseList es) = refsAll es := by
  induction es with
  | nil => rfl
  | cons e es ih =>
    rw [List.forall_mem_cons] at h
    simp [eraseList, refsAll, h.1, ih h.2]

theorem Expression.refs_erase (e : Expression) : e.erase.refs = e.refs := by
  induction e using Expression.induction with
  | primary n v => rfl
  | binary n l op r hl hr => simp [erase, refs, hl, hr]
  | pointerOf n t ht => exact ht
  | rowLiteral n es hes => exact refsAll_erase_of hes
  | arrayLiteral n es hes => exact refsAll_erase_of hes
  | variableRef n x => rfl
  | functionCall n p as _ has => exact refsAll_erase_of has
  | arrayReference n p i hp hi =>
    cases p with
    | none => simp [erase, refs, eraseParent, hi]
    | some p => simp [erase, refs, eraseParent, refsParent, hp p rfl, hi]
  | memberReference n p x o hp => exact hp
  | assign n t v ht hv => simp [erase, refs, ht, hv]

theorem Ptr.refs_erase (p : Ptr Expression) : p.erase.refs = p.refs :=
  match p with
  | .null => rfl
  | .uninit => rfl
  | .to e => e.refs_erase

theorem Statement.bound_erase (s : Statement) : s.erase.bound = s.bound := by
  cases s <;> rfl

theorem boundInit_erase (p : Ptr Statement) : boundInit (eraseInit p) = boundInit p :=
  match p with
  | .null => rfl
  | .uninit => rfl
  | .to s => s.bound_erase

theorem freeAll_erase_of {ss : List Statement} (h : ∀ s ∈ ss, s.erase.free = s.free) :
    freeAll (eraseAll ss) = freeAll ss := by
  induction ss with
  | nil => rfl
  | cons s ss ih =>
    rw [List.forall_mem_cons] at h
    simp [eraseAll, freeAll, h.1, ih h.2, s.bound_erase]

theorem Statement.free_erase (s : Statement) : s.erase.free = s.free := by
  induction s using Statement.induction with
  | block ss hss => exact freeAll_erase_of hss
  | transaction isolation ss hss => exact freeAll_erase_of hss
  | define schema name => rfl
  | forStmt init cond every blk hinit hblk =>
    have hinit' : freeInit (eraseInit init) = freeInit init :=
      match init, hinit with
      | .null, _ => rfl
      | .uninit, _ => rfl
      | .to s, hinit => hinit s rfl
    simp [erase, free, hinit', cond.refs_erase, every.refs_erase, freeAll_erase_of hblk,
      boundInit_erase]
  | jump t => rfl
  | emit stack e => exact e.refs_erase
  | insert table e frame => exact e.refs_erase
  | scan table r blk frame hblk => simp [erase, free, freeAll_erase_of hblk]
  | letStmt name e type => exact e.refs_erase
  | defineTuple name type => rfl
  | ifStmt cond ts fs hts hfs =>
    have helse : freeElse (eraseElse fs) = freeElse fs := by
      cases fs with
      | none => rfl
      | some fs => exact freeAll_erase_of (hfs fs rfl)
    simp [erase, free, cond.refs_erase, freeAll_erase_of hts, helse]
  | exprStatement stack e => exact e.refs_erase

theorem freeAll_congr {ss ss' : List Statement} (h : eraseAll ss' = eraseAll ss) :
    freeAll ss' = freeAll ss := by
  rw [← freeAll_erase_of fun s _ => s.free_erase, h, freeAll_erase_of fun s _ => s.free_erase]

theorem Statement.allocated_erase (s : Statement) : s.erase.allocated = s.allocated := by
  induction s using Statement.induction with
  | forStmt init cond every blk hinit _ =>
    exact match init, hinit with
      | .null, _ => rfl
      | .uninit, _ => rfl
      | .to s, hinit => hinit s rfl
  | _ => rfl

theorem allocatedInit_congr {p q : Ptr Statement} (h : eraseInit q = eraseInit p) :
    allocatedInit q = allocatedInit p := by
  have herase : ∀ p, allocatedInit (eraseInit p) = allocatedInit p := fun p =>
    match p with
    | .null => rfl
    | .uninit => rfl
    | .to s => s.allocated_erase
  rw [← herase q, h, herase p]

theorem bindersAll_erase_of {ss : List Statement} (h : ∀ s ∈ ss, s.erase.binders = s.binders) :
    bindersAll (eraseAll ss) = bindersAll ss := by
  induction ss with
  | nil => rfl
  | cons s ss ih =>
    rw [List.forall_mem_cons] at h
    simp [eraseAll, bindersAll, h.1, ih h.2]

theorem bindersElse_erase_of {fs : Option (List Statement)}
    (h : ∀ ss ∈ fs, ∀ s ∈ ss, s.erase.binders = s.binders) :
    bindersElse (eraseElse fs) = bindersElse fs := by
  cases fs with
  | none => rfl
  | some fs => exact bindersAll_erase_of (h fs rfl)

theorem Statement.binders_erase (s : Statement) : s.erase.binders = s.binders := by
  induction s using Statement.induction with
  | block ss hss => exact bindersAll_erase_of hss
  | transaction isolation ss hss => exact bindersAll_erase_of hss
  | forStmt init cond every blk _ hblk =>
    have hinit : allocatedInit (eraseInit init) = allocatedInit init :=
      match init with
      | .null => rfl
      | .uninit => rfl
      | .to s => s.allocated_erase
    simp [erase, binders, hinit, bindersAll_erase_of hblk]
  | scan table r blk frame hblk => simp [erase, binders, bindersAll_erase_of hblk]
  | ifStmt cond ts fs hts hfs =>
    simp [erase, binders, bindersAll_erase_of hts, bindersElse_erase_of hfs]
  | _ => rfl

theorem rowsLastAll_erase_of {ss : List Statement}
    (h : ∀ s ∈ ss, ∀ after, s.erase.rowsLast after = s.rowsLast after) (after : List Text) :
    rowsLastAll after (eraseAll ss) = rowsLastAll after ss := by
  induction ss with
  | nil => rfl
  | cons s ss ih =>
    rw [List.forall_mem_cons] at h
    simp [eraseAll, rowsLastAll, h.1, ih h.2, bindersAll_erase_of fun s _ => s.binders_erase]

theorem Statement.rowsLast_erase (s : Statement) (after : List Text) :
    s.erase.rowsLast after = s.rowsLast after := by
  induction s using Statement.induction generalizing after with
  | block ss hss => exact rowsLastAll_erase_of hss after
  | transaction isolation ss hss => exact rowsLastAll_erase_of hss after
  | forStmt init cond every blk hinit hblk =>
    have hinit' : ∀ after, rowsLastInit after (eraseInit init) = rowsLastInit after init :=
      match init, hinit with
      | .null, _ => fun _ => rfl
      | .uninit, _ => fun _ => rfl
      | .to s, hinit => hinit s rfl
    simp [erase, rowsLast, hinit', rowsLastAll_erase_of hblk,
      bindersAll_erase_of fun s _ => s.binders_erase]
  | scan table r blk frame hblk =>
    simp [erase, rowsLast, rowsLastAll_erase_of hblk, freeAll_erase_of fun s _ => s.free_erase,
      bindersAll_erase_of fun s _ => s.binders_erase]
  | ifStmt cond ts fs hts hfs =>
    have helse : rowsLastElse after (eraseElse fs) = rowsLastElse after fs := by
      cases fs with
      | none => rfl
      | some fs => exact rowsLastAll_erase_of (hfs fs rfl) after
    simp [erase, rowsLast, rowsLastAll_erase_of hts, helse,
      bindersElse_erase_of fun _ _ s _ => s.binders_erase]
  | _ => rfl

theorem rowsLastAll_congr {ss ss' : List Statement} (h : eraseAll ss' = eraseAll ss)
    (after : List Text) : rowsLastAll after ss' = rowsLastAll after ss := by
  rw [← rowsLastAll_erase_of fun s _ => s.rowsLast_erase, h,
    rowsLastAll_erase_of fun s _ => s.rowsLast_erase]

theorem analyzeAll_fresh_of {ss : List Statement}
    (h : ∀ s ∈ ss, s.analyze.Yields fun s' => s'.fresh = s.fresh) :
    (analyzeAll ss).Yields fun ss' => freshAll ss' = freshAll ss := by
  induction ss with
  | nil => exact yields_pure rfl
  | cons s ss ih =>
    rw [List.forall_mem_cons] at h
    exact h.1.bind fun s' hs => (ih h.2).bind fun ss' hss =>
      yields_pure (by simp [freshAll, hs, hss])

theorem Statement.analyze_fresh (s : Statement) : s.analyze.Yields fun s' => s'.fresh = s.fresh := by
  induction s using Statement.induction with
  | block ss hss =>
    exact (analyzeAll_fresh_of hss).bind fun ss' h => yields_pure (by simp [fresh, h])
  | transaction isolation ss hss =>
    exact (analyzeAll_fresh_of hss).bind fun ss' h => yields_pure (by simp [fresh, h])
  | define schema name =>
    exact (yields_true _).bind fun _ _ => (yields_true _).bind fun _ _ =>
      (yields_true _).bind fun _ _ => yields_pure rfl
  | forStmt init cond every blk hinit hblk =>
    have hinit' : (analyzeInit init).Yields fun p => freshInit p = freshInit init :=
      match init, hinit with
      | .null, _ => yields_pure rfl
      | .uninit, _ => yields_fail _ _
      | .to s, hinit => (hinit s rfl).bind fun s' h => yields_pure (by simp [freshInit, h])
    exact hinit'.bind fun init' hi => (yields_true _).bind fun _ _ => (yields_true _).bind fun _ _ =>
      (analyzeAll_fresh_of hblk).bind fun blk' hb => yields_pure (by simp [fresh, hi, hb])
  | jump t => exact yields_pure rfl
  | emit stack e => exact (yields_true _).bind fun _ _ => yields_pure rfl
  | insert table e frame => exact (yields_true _).bind fun _ _ => yields_pure rfl
  | scan table r blk frame hblk =>
    exact (yields_true _).bind fun _ _ => (yields_true _).bind fun _ _ =>
      (analyzeAll_fresh_of hblk).bind fun blk' h => yields_pure (by simp [fresh, h])
  | letStmt name e type =>
    exact (yields_true _).bind fun _ _ => (yields_true _).bind fun _ _ => yields_pure rfl
  | defineTuple name type =>
    exact (yields_true _).bind fun _ _ => (yields_true _).bind fun _ _ => yields_pure rfl
  | ifStmt cond ts fs hts hfs =>
    have helse : (analyzeElse fs).Yields fun p => freshElse p = freshElse fs := by
      cases fs with
      | none => exact yields_pure rfl
      | some fs =>
        exact (analyzeAll_fresh_of (hfs fs rfl)).bind fun fs' h => yields_pure (by simp [freshElse, h])
    exact (yields_true _).bind fun _ _ => (analyzeAll_fresh_of hts).bind fun ts' ht =>
      helse.bind fun fs' hf => yields_pure (by simp [fresh, ht, hf])
  | exprStatement stack e => exact (yields_true _).bind fun _ _ => yields_pure rfl

mutual

def Statement.scanFree : Statement → Bool
  | .block ss => scanFreeAll ss
  | .transaction _ ss => scanFreeAll ss
  | .forStmt init _ _ blk => scanFreeInit init && scanFreeAll blk
  | .scan _ _ _ _ => false
  | .ifStmt _ ts fs => scanFreeAll ts && scanFreeElse fs
  | _ => true

def scanFreeInit : Ptr Statement → Bool
  | .to s => s.scanFree
  | _ => true

def scanFreeElse : Option (List Statement) → Bool
  | some ss => scanFreeAll ss
  | none => true

def scanFreeAll : List Statement → Bool
  | [] => true
  | s :: ss => s.scanFree && scanFreeAll ss

end

/-- Some run of the step returns. -/
def Gen.Succeeds {α : Type} (p : Gen α) : Prop := ∃ c a c', p.run c = .ok (a, c')

theorem Gen.Succeeds.of_bind {α β : Type} {p : Gen α} {f : α → Gen β} (h : (p >>= f).Succeeds) :
    p.Succeeds ∧ ∃ a, (f a).Succeeds := by
  obtain ⟨c, b, c', hrun⟩ := h
  obtain ⟨a, c₁, h₁, h₂⟩ := bind_eq_ok.mp hrun
  exact ⟨⟨c, a, c₁, h₁⟩, a, c₁, b, c', h₂⟩

theorem Gen.not_succeeds_fail {α : Type} (e : CompileError) : ¬(fail e : Gen α).Succeeds := by
  rintro ⟨c, a, c', h⟩
  simp at h

theorem ifCode_succeeds {cond : Gen LLValue} {trueCode falseCode : Gen Unit}
    (h : (ifCode cond trueCode falseCode).Succeeds) :
    trueCode.Succeeds ∧ falseCode.Succeeds := by
  obtain ⟨-, _, h⟩ := h.of_bind
  obtain ⟨-, _, h⟩ := h.of_bind
  obtain ⟨-, _, h⟩ := h.of_bind
  obtain ⟨-, _, h⟩ := h.of_bind
  obtain ⟨-, _, h⟩ := h.of_bind
  obtain ⟨-, _, h⟩ := h.of_bind
  obtain ⟨-, _, h⟩ := h.of_bind
  obtain ⟨htrue, _, h⟩ := h.of_bind
  obtain ⟨-, _, h⟩ := h.of_bind
  obtain ⟨-, _, h⟩ := h.of_bind
  exact ⟨htrue, h.of_bind.1⟩

theorem forCode_succeeds {init blk : Gen Unit} {cond every : Ptr Expression}
    (h : (forCode init cond every blk).Succeeds) : init.Succeeds ∧ blk.Succeeds := by
  obtain ⟨hinit, _, h⟩ := h.of_bind
  obtain ⟨-, _, h⟩ := h.of_bind
  obtain ⟨-, _, h⟩ := h.of_bind
  obtain ⟨-, _, h⟩ := h.of_bind
  obtain ⟨-, _, h⟩ := h.of_bind
  obtain ⟨-, _, h⟩ := h.of_bind
  obtain ⟨-, _, h⟩ := h.of_bind
  obtain ⟨-, _, h⟩ := h.of_bind
  obtain ⟨-, _, h⟩ := h.of_bind
  obtain ⟨-, _, h⟩ := h.of_bind
  exact ⟨hinit, h.of_bind.1⟩

theorem scanCode_succeeds {table r : Text} {frame : ScanFrame} {blk : Gen Unit}
    (h : (scanCode table r frame blk).Succeeds) : frame.prefixBegin ≠ none ∧ blk.Succeeds := by
  obtain ⟨-, _, h⟩ := h.of_bind
  obtain ⟨-, _, h⟩ := h.of_bind
  obtain ⟨-, _, h⟩ := h.of_bind
  obtain ⟨hcursor, _, h⟩ := h.of_bind
  have hbegin : frame.prefixBegin ≠ none := by
    intro hnone
    have hreq := hcursor.of_bind.1
    rw [hnone] at hreq
    exact not_succeeds_fail _ hreq
  obtain ⟨-, _, h⟩ := h.of_bind
  obtain ⟨-, _, h⟩ := h.of_bind
  obtain ⟨-, _, h⟩ := h.of_bind
  obtain ⟨-, _, h⟩ := h.of_bind
  obtain ⟨-, _, h⟩ := h.of_bind
  obtain ⟨-, _, h⟩ := h.of_bind
  obtain ⟨-, _, h⟩ := h.of_bind
  obtain ⟨-, _, h⟩ := h.of_bind
  obtain ⟨-, _, h⟩ := h.of_bind
  obtain ⟨-, _, h⟩ := h.of_bind
  exact ⟨hbegin, h.of_bind.1⟩

theorem codegenAll_scanFree_of {around : List Frame} {ss : List Statement}
    (h : ∀ s ∈ ss, ∀ {around}, s.fresh = true → (s.codegen around).Succeeds → s.scanFree = true)
    (hfresh : freshAll ss = true) (hcode : (codegenAll around ss).Succeeds) :
    scanFreeAll ss = true := by
  induction ss with
  | nil => rfl
  | cons s ss ih =>
    rw [List.forall_mem_cons] at h
    rw [freshAll, Bool.and_eq_true] at hfresh
    obtain ⟨hs, _, hss⟩ := hcode.of_bind
    rw [scanFreeAll, h.1 hfresh.1 hs, ih h.2 hfresh.2 hss]
    rfl

/-- Code is generated only for a `Scan` that has been allocated. -/
theorem Statement.codegen_scanFree (s : Statement) {around : List Frame} (hfresh : s.fresh = true)
    (hcode : (s.codegen around).Succeeds) : s.scanFree = true := by
  induction s using Statement.induction generalizing around with
  | block ss hss => exact codegenAll_scanFree_of hss hfresh hcode
  | transaction isolation ss hss =>
    obtain ⟨-, _, hbody⟩ := hcode.of_bind
    exact codegenAll_scanFree_of hss hfresh hbody.of_bind.1
  | forStmt init cond every blk hinit hblk =>
    rw [fresh, Bool.and_eq_true] at hfresh
    obtain ⟨hi, hb⟩ := forCode_succeeds hcode
    have hinit' : scanFreeInit init = true :=
      match init, hinit, hfresh.1, hi with
      | .null, _, _, _ => rfl
      | .uninit, _, _, _ => rfl
      | .to s, hinit, hfresh, hi => hinit s rfl hfresh hi
    rw [scanFree, hinit', codegenAll_scanFree_of hblk hfresh.2 hb]
    rfl
  | scan table r blk frame hblk =>
    rw [fresh, Bool.and_eq_true, decide_eq_true_eq] at hfresh
    exact absurd (by rw [hfresh.1]) (scanCode_succeeds hcode).1
  | ifStmt cond ts fs hts hfs =>
    rw [fresh, Bool.and_eq_true] at hfresh
    obtain ⟨ht, hf⟩ := ifCode_succeeds hcode
    have helse : scanFreeElse fs = true := by
      cases fs with
      | none => rfl
      | some fs => exact codegenAll_scanFree_of (hfs fs rfl) hfresh.2 hf
    rw [scanFree, helse, codegenAll_scanFree_of hts hfresh.1 ht]
    rfl
  | _ => rfl

/-- The init part of a `For` is allocated twice, which a `Scan` does not survive. -/
theorem Statement.allocaStack_scanFree (s : Statement) {s₁ s₂ : Statement} {c c₁ d d₁ : Ctx}
    {around : List Frame} (hfresh : s.fresh = true) (h₁ : s.allocaStack.run c = .ok (s₁, c₁))
    (h₂ : s₁.allocaStack.run d = .ok (s₂, d₁)) (hcode : (s₂.codegen around).Succeeds) :
    s.scanFree = true := by
  induction s using Statement.induction generalizing s₁ s₂ c c₁ d d₁ around with
  | block ss _ =>
    obtain ⟨rfl, -⟩ := pure_eq_ok.mp h₁
    obtain ⟨rfl, -⟩ := pure_eq_ok.mp h₂
    exact Statement.codegen_scanFree _ hfresh hcode
  | transaction isolation ss _ =>
    obtain ⟨rfl, -⟩ := pure_eq_ok.mp h₁
    obtain ⟨rfl, -⟩ := pure_eq_ok.mp h₂
    exact Statement.codegen_scanFree _ hfresh hcode
  | ifStmt cond ts fs _ _ =>
    obtain ⟨rfl, -⟩ := pure_eq_ok.mp h₁
    obtain ⟨rfl, -⟩ := pure_eq_ok.mp h₂
    exact Statement.codegen_scanFree _ hfresh hcode
  | forStmt init cond every blk hinit _ =>
    rw [fresh, Bool.and_eq_true] at hfresh
    obtain ⟨init₁, c', hi₁, hret₁⟩ := bind_eq_ok.mp h₁
    obtain ⟨rfl, -⟩ := pure_eq_ok.mp hret₁
    obtain ⟨init₂, d', hi₂, hret₂⟩ := bind_eq_ok.mp h₂
    obtain ⟨rfl, -⟩ := pure_eq_ok.mp hret₂
    obtain ⟨hci, hcb⟩ := forCode_succeeds hcode
    have hblk := codegenAll_scanFree_of (fun s _ => s.codegen_scanFree) hfresh.2 hcb
    have hinit' : scanFreeInit init = true := by
      match init, hinit, hfresh.1, hi₁ with
      | .null, _, _, _ => rfl
      | .uninit, _, _, _ => rfl
      | .to s, hinit, hfresh, hi₁ =>
        obtain ⟨s₁, c₂, hs₁, hret⟩ := bind_eq_ok.mp hi₁
        obtain ⟨rfl, -⟩ := pure_eq_ok.mp hret
        obtain ⟨s₂, d₂, hs₂, hret⟩ := bind_eq_ok.mp hi₂
        obtain ⟨rfl, -⟩ := pure_eq_ok.mp hret
        exact hinit s rfl hfresh hs₁ hs₂ hci
    rw [scanFree, hinit', hblk]
    rfl
  | scan table r blk frame _ =>
    obtain ⟨frame₁, c', hs₁, hret₁⟩ := bind_eq_ok.mp h₁
    obtain ⟨rfl, -⟩ := pure_eq_ok.mp hret₁
    obtain ⟨frame₂, d', hs₂, hret₂⟩ := bind_eq_ok.mp h₂
    exact absurd (allocaScan_spec hs₂).1 (allocaScan_spec hs₁).2.1
  | _ => rfl

theorem scanFreeAll_erase_of {ss : List Statement} (h : ∀ s ∈ ss, s.erase.scanFree = s.scanFree) :
    scanFreeAll (eraseAll ss) = scanFreeAll ss := by
  induction ss with
  | nil => rfl
  | cons s ss ih =>
    rw [List.forall_mem_cons] at h
    simp [eraseAll, scanFreeAll, h.1, ih h.2]

theorem Statement.scanFree_erase (s : Statement) : s.erase.scanFree = s.scanFree := by
  induction s using Statement.induction with
  | block ss hss => exact scanFreeAll_erase_of hss
  | transaction isolation ss hss => exact scanFreeAll_erase_of hss
  | forStmt init cond every blk hinit hblk =>
    have hinit' : scanFreeInit (eraseInit init) = scanFreeInit init :=
      match init, hinit with
      | .null, _ => rfl
      | .uninit, _ => rfl
      | .to s, hinit => hinit s rfl
    simp [erase, scanFree, hinit', scanFreeAll_erase_of hblk]
  | ifStmt cond ts fs hts hfs =>
    have helse : scanFreeElse (eraseElse fs) = scanFreeElse fs := by
      cases fs with
      | none => rfl
      | some fs => exact scanFreeAll_erase_of (hfs fs rfl)
    simp [erase, scanFree, scanFreeAll_erase_of hts, helse]
  | _ => rfl

theorem scanFreeAll_cases {c : Ctx} {ss : List Statement}
    (h : ∀ s ∈ ss, s.scanFree = true → s.RowsResolve c ∧ ∀ after, s.rowsLast after = true)
    (hfree : scanFreeAll ss = true) :
    RowsResolveAll c ss ∧ ∀ after, rowsLastAll after ss = true := by
  induction ss with
  | nil => exact ⟨trivial, fun _ => rfl⟩
  | cons s ss ih =>
    rw [List.forall_mem_cons] at h
    rw [scanFreeAll, Bool.and_eq_true] at hfree
    obtain ⟨hs, hs'⟩ := h.1 hfree.1
    obtain ⟨hss, hss'⟩ := ih h.2 hfree.2
    refine ⟨⟨hs, hss⟩, fun after => ?_⟩
    rw [rowsLastAll, hs', hss']
    rfl

/-- Without a `Scan` there is nothing to resolve. -/
theorem Statement.scanFree_cases (c : Ctx) (s : Statement) (h : s.scanFree = true) :
    s.RowsResolve c ∧ ∀ after, s.rowsLast after = true := by
  induction s using Statement.induction with
  | block ss hss => exact scanFreeAll_cases hss h
  | transaction isolation ss hss => exact scanFreeAll_cases hss h
  | forStmt init cond every blk hinit hblk =>
    rw [scanFree, Bool.and_eq_true] at h
    have hinit' : RowsResolveInit c init ∧ ∀ after, rowsLastInit after init = true :=
      match init, hinit, h.1 with
      | .null, _, _ => ⟨trivial, fun _ => rfl⟩
      | .uninit, _, _ => ⟨trivial, fun _ => rfl⟩
      | .to s, hinit, h => hinit s rfl h
    obtain ⟨hb, hb'⟩ := scanFreeAll_cases hblk h.2
    refine ⟨⟨hinit'.1, hb⟩, fun after => ?_⟩
    rw [rowsLast, hinit'.2, hb']
    rfl
  | scan table r blk frame _ => simp [scanFree] at h
  | ifStmt cond ts fs hts hfs =>
    rw [scanFree, Bool.and_eq_true] at h
    obtain ⟨ht, ht'⟩ := scanFreeAll_cases hts h.1
    have helse : RowsResolveElse c fs ∧ ∀ after, rowsLastElse after fs = true := by
      cases fs with
      | none => exact ⟨trivial, fun _ => rfl⟩
      | some fs => exact scanFreeAll_cases (hfs fs rfl) h.2
    refine ⟨⟨ht, helse.1⟩, fun after => ?_⟩
    rw [rowsLast, ht', helse.2]
    rfl
  | _ => exact ⟨trivial, fun _ => rfl⟩

theorem binds_allocaInit (init : Ptr Statement) : (allocaInit init).Binds (allocatedInit init) :=
  match init with
  | .null => bindsRules.pure _
  | .uninit => bindsRules.fail _
  | .to s => by
    have hs := s.binds_allocaStack.bind fun s' => bindsRules.pure (Ptr.to s')
    rwa [List.append_nil] at hs

theorem allocaInit_erase (init : Ptr Statement) :
    (allocaInit init).Yields fun p => eraseInit p = eraseInit init :=
  allocaInit_erase_of fun s _ => s.allocaStack_erase

/-- Both allocations of the init part of a `For`. -/
theorem binds_allocaInit_twice {init init₁ init₂ : Ptr Statement} {c c₁ c₂ : Ctx}
    (h₁ : (allocaInit init).run c = .ok (init₁, c₁))
    (h₂ : (allocaInit init₁).run c₁ = .ok (init₂, c₂)) : Binds (allocatedInit init) c c₂ := by
  have hb := (binds_allocaInit init h₁).trans (binds_allocaInit init₁ h₂)
  rw [allocatedInit_congr (allocaInit_erase init h₁)] at hb
  exact hb.congr (by simp)

theorem binds_eachStatement_of {ss : List Statement} (h : ∀ s ∈ ss, s.visit.Binds s.binders) :
    (eachStatement ss).Binds (bindersAll ss) := by
  induction ss with
  | nil => exact bindsRules.pure _
  | cons s ss ih =>
    rw [List.forall_mem_cons] at h
    have hss := (ih h.2).bind fun ss' => bindsRules.pure ss'
    intro c b c' hrun
    obtain ⟨s', c₁, h₁, hrun⟩ := bind_eq_ok.mp hrun
    obtain ⟨ss', c₂, h₂, hret⟩ := bind_eq_ok.mp hrun
    obtain ⟨-, rfl⟩ := pure_eq_ok.mp hret
    exact (h.1 h₁).trans (ih h.2 h₂)

theorem Statement.binds_visit (s : Statement) : s.visit.Binds s.binders := by
  induction s using Statement.induction with
  | block ss hss =>
    intro c s' c' h
    obtain ⟨ss', c₁, h₁, hret⟩ := bind_eq_ok.mp h
    obtain ⟨-, rfl⟩ := pure_eq_ok.mp hret
    exact binds_eachStatement_of hss h₁
  | transaction isolation ss hss =>
    intro c s' c' h
    obtain ⟨ss', c₁, h₁, hret⟩ := bind_eq_ok.mp h
    obtain ⟨-, rfl⟩ := pure_eq_ok.mp hret
    exact binds_eachStatement_of hss h₁
  | forStmt init cond every blk _ hblk =>
    intro c s' c' h
    obtain ⟨init₁, c₁, h₁, h⟩ := bind_eq_ok.mp h
    obtain ⟨init₂, c₂, h₂, h⟩ := bind_eq_ok.mp h
    obtain ⟨blk', c₃, h₃, hret⟩ := bind_eq_ok.mp h
    obtain ⟨-, rfl⟩ := pure_eq_ok.mp hret
    exact (binds_allocaInit_twice h₁ h₂).trans (binds_eachStatement_of hblk h₃)
  | scan table r blk frame hblk =>
    intro c s' c' h
    obtain ⟨frame', c₁, h₁, h⟩ := bind_eq_ok.mp h
    obtain ⟨blk', c₂, h₂, hret⟩ := bind_eq_ok.mp h
    obtain ⟨-, rfl⟩ := pure_eq_ok.mp hret
    exact (allocaScan_spec h₁).2.2.1.trans (binds_eachStatement_of hblk h₂)
  | ifStmt cond ts fs hts hfs =>
    intro c s' c' h
    obtain ⟨ts', c₁, h₁, h⟩ := bind_eq_ok.mp h
    obtain ⟨fs', c₂, h₂, hret⟩ := bind_eq_ok.mp h
    obtain ⟨-, rfl⟩ := pure_eq_ok.mp hret
    refine (binds_eachStatement_of hts h₁).trans ?_
    cases fs with
    | none =>
      obtain ⟨-, rfl⟩ := pure_eq_ok.mp h₂
      exact binds_of_eq List.prefix_rfl rfl
    | some fs =>
      obtain ⟨fs', c₃, h₃, hret⟩ := bind_eq_ok.mp h₂
      obtain ⟨-, rfl⟩ := pure_eq_ok.mp hret
      exact binds_eachStatement_of (hfs fs rfl) h₃
  | define schema name => exact Statement.binds_allocaStack _
  | jump t => exact Statement.binds_allocaStack _
  | emit stack e => exact Statement.binds_allocaStack _
  | insert table e frame => exact Statement.binds_allocaStack _
  | letStmt name e type => exact Statement.binds_allocaStack _
  | defineTuple name type => exact Statement.binds_allocaStack _
  | exprStatement stack e => exact Statement.binds_allocaStack _

theorem binds_eachStatement (ss : List Statement) : (eachStatement ss).Binds (bindersAll ss) :=
  binds_eachStatement_of fun s _ => s.binds_visit

theorem findVar_eq_ok {x : Text} {p : LLValue} {c c' : Ctx} :
    (findVar x).run c = .ok (p, c') ↔ ∃ slot ty, c.vars x = some (some slot) ∧
      c.slots[slot]? = some ty ∧ slotPtr slot ty = p ∧ c = c' := by
  simp only [findVar, bind_eq_ok, get_eq_ok, require_eq_ok, pure_eq_ok]
  constructor
  · rintro ⟨_, _, ⟨rfl, rfl⟩, _, _, ⟨hvar, rfl⟩, slot, _, ⟨rfl, rfl⟩, ty, _, ⟨hslot, rfl⟩, hp, hc⟩
    exact ⟨slot, ty, hvar, hslot, hp, hc⟩
  · rintro ⟨slot, ty, hvar, hslot, hp, rfl⟩
    exact ⟨c, c, ⟨rfl, rfl⟩, some slot, c, ⟨hvar, rfl⟩, slot, c, ⟨rfl, rfl⟩, ty, c, ⟨hslot, rfl⟩,
      hp, rfl⟩

theorem slotOf_eq_ok {o : Option ℕ} {p : LLValue} {c c' : Ctx} :
    (slotOf o).run c = .ok (p, c') ↔ ∃ slot ty, o = some slot ∧ c.slots[slot]? = some ty ∧
      slotPtr slot ty = p ∧ c = c' := by
  simp only [slotOf, bind_eq_ok, get_eq_ok, require_eq_ok, pure_eq_ok]
  constructor
  · rintro ⟨slot, _, ⟨ho, rfl⟩, _, _, ⟨rfl, rfl⟩, ty, _, ⟨hslot, rfl⟩, hp, hc⟩
    exact ⟨slot, ty, ho, hslot, hp, hc⟩
  · rintro ⟨slot, ty, ho, hslot, hp, rfl⟩
    exact ⟨slot, c, ⟨ho, rfl⟩, c, c, ⟨rfl, rfl⟩, ty, c, ⟨hslot, rfl⟩, hp, rfl⟩

/-- The rows of an allocated `Scan` are found under its name unless the name is bound again. -/
theorem rowResolves_iff {names : List Text} {c c' : Ctx} {r : Text} {frame : ScanFrame}
    {slot id : ℕ} {ts : List LLType} (hframe : frame.tupleStack = some slot)
    (hvar : c.vars r = some (some slot)) (hslot : c.slots[slot]? = some (.scanRow id ts))
    (h : Binds names c c') : RowResolves c' r frame ↔ r ∉ names := by
  have hlt : slot < c.slots.length := (List.getElem?_eq_some_iff.mp hslot).1
  have hslot' : c'.slots[slot]? = some (.scanRow id ts) := by
    obtain ⟨more, hmore⟩ := h.slots_le
    rw [← hmore, List.getElem?_append_left hlt, hslot]
  rw [← h.var_iff hlt hvar]
  constructor
  · rintro ⟨p, _, _, hfind, hown, -⟩
    obtain ⟨slot₁, ty₁, hvar₁, -, rfl, -⟩ := findVar_eq_ok.mp hfind
    obtain ⟨slot₂, ty₂, hown₂, -, hp, -⟩ := slotOf_eq_ok.mp hown
    rw [hframe, Option.some.injEq] at hown₂
    simp only [slotPtr, LLValue.mk.injEq, Op.slot.injEq] at hp
    rw [hvar₁, ← hp.1, hown₂]
  · intro hvar'
    exact ⟨slotPtr slot (.scanRow id ts), id, ts,
      findVar_eq_ok.mpr ⟨slot, _, hvar', hslot', rfl, rfl⟩,
      slotOf_eq_ok.mpr ⟨slot, _, hframe, hslot', rfl, rfl⟩, rfl⟩

section
variable {c c₁ c₂ : Ctx} {after : List Text}

theorem scanFree_rowsResolve {s s' : Statement} (hfree : s.scanFree = true)
    (herase : s'.erase = s.erase) : s'.RowsResolve c₂ ↔ s.rowsLast after = true := by
  have hfree' : s'.scanFree = true := by
    rw [← s'.scanFree_erase, herase, s.scanFree_erase, hfree]
  exact iff_of_true (s'.scanFree_cases c₂ hfree').1 ((s.scanFree_cases c₂ hfree).2 after)

theorem initResolve {init init₁ init₂ : Ptr Statement} {d d₁ : Ctx} {around : List Frame}
    (hfresh : freshInit init = true) (h₁ : (allocaInit init).run c = .ok (init₁, c₁))
    (h₂ : (allocaInit init₁).run d = .ok (init₂, d₁))
    (hcode : (codegenInit around init₂).Succeeds) :
    RowsResolveInit c₂ init₂ ↔ rowsLastInit after init = true := by
  match init, hfresh, h₁ with
  | .null, _, h₁ =>
    obtain ⟨rfl, -⟩ := pure_eq_ok.mp h₁
    obtain ⟨rfl, -⟩ := pure_eq_ok.mp h₂
    exact iff_of_true trivial rfl
  | .uninit, _, h₁ => exact absurd h₁ (by simp [allocaInit])
  | .to s, hfresh, h₁ =>
    obtain ⟨s₁, _, hs₁, hret⟩ := bind_eq_ok.mp h₁
    obtain ⟨rfl, -⟩ := pure_eq_ok.mp hret
    obtain ⟨s₂, _, hs₂, hret⟩ := bind_eq_ok.mp h₂
    obtain ⟨rfl, -⟩ := pure_eq_ok.mp hret
    have hfree := s.allocaStack_scanFree hfresh hs₁ hs₂ hcode
    exact scanFree_rowsResolve hfree ((s₁.allocaStack_erase hs₂).trans (s.allocaStack_erase hs₁))

theorem eachStatement_rowsResolve_of {around : List Frame} {ss ss' : List Statement}
    (h : ∀ s ∈ ss, ∀ {c c₁ c₂ after s' around}, s.fresh = true → s.visit.run c = .ok (s', c₁) →
      (s'.codegen around).Succeeds → Binds after c₁ c₂ →
        (s'.RowsResolve c₂ ↔ s.rowsLast after = true))
    (hfresh : freshAll ss = true) (hrun : (eachStatement ss).run c = .ok (ss', c₁))
    (hcode : (codegenAll around ss').Succeeds) (hafter : Binds after c₁ c₂) :
    RowsResolveAll c₂ ss' ↔ rowsLastAll after ss = true := by
  induction ss generalizing ss' c with
  | nil =>
    obtain ⟨rfl, -⟩ := pure_eq_ok.mp hrun
    simp [RowsResolveAll, rowsLastAll]
  | cons s ss ih =>
    rw [List.forall_mem_cons] at h
    rw [freshAll, Bool.and_eq_true] at hfresh
    obtain ⟨s', d, hs, hrun⟩ := bind_eq_ok.mp hrun
    obtain ⟨ss₁, d₁, hss, hret⟩ := bind_eq_ok.mp hrun
    obtain ⟨rfl, rfl⟩ := pure_eq_ok.mp hret
    obtain ⟨hcs, _, hcss⟩ := hcode.of_bind
    have hlater := (binds_eachStatement ss hss).trans hafter
    rw [RowsResolveAll, rowsLastAll, Bool.and_eq_true, h.1 hfresh.1 hs hcs hlater,
      ih h.2 hfresh.2 hss hcss]

/-- The rows of a statement resolve exactly when each `Scan` in question is the last binder of
its row name; `after` are the names that are bound by what is allocated later. -/
theorem Statement.visit_rowsResolve (s : Statement) {s' : Statement} {around : List Frame}
    (hfresh : s.fresh = true) (hrun : s.visit.run c = .ok (s', c₁))
    (hcode : (s'.codegen around).Succeeds) (hafter : Binds after c₁ c₂) :
    s'.RowsResolve c₂ ↔ s.rowsLast after = true := by
  induction s using Statement.induction generalizing s' c c₁ c₂ after around with
  | block ss hss =>
    obtain ⟨ss', d, h₁, hret⟩ := bind_eq_ok.mp hrun
    obtain ⟨rfl, rfl⟩ := pure_eq_ok.mp hret
    exact eachStatement_rowsResolve_of hss hfresh h₁ hcode hafter
  | transaction isolation ss hss =>
    obtain ⟨ss', d, h₁, hret⟩ := bind_eq_ok.mp hrun
    obtain ⟨rfl, rfl⟩ := pure_eq_ok.mp hret
    obtain ⟨-, _, hbody⟩ := hcode.of_bind
    exact eachStatement_rowsResolve_of hss hfresh h₁ hbody.of_bind.1 hafter
  | forStmt init cond every blk hinit hblk =>
    rw [fresh, Bool.and_eq_true] at hfresh
    obtain ⟨init₁, d₁, h₁, hrun⟩ := bind_eq_ok.mp hrun
    obtain ⟨init₂, d₂, h₂, hrun⟩ := bind_eq_ok.mp hrun
    obtain ⟨blk', d₃, h₃, hret⟩ := bind_eq_ok.mp hrun
    obtain ⟨rfl, rfl⟩ := pure_eq_ok.mp hret
    obtain ⟨hci, hcb⟩ := forCode_succeeds hcode
    have hblk' := eachStatement_rowsResolve_of hblk hfresh.2 h₃ hcb hafter
    have hinit' : RowsResolveInit c₂ init₂ ↔ rowsLastInit (bindersAll blk ++ after) init = true :=
      initResolve hfresh.1 h₁ h₂ hci
    rw [RowsResolve, rowsLast, Bool.and_eq_true, hblk', hinit']
  | scan table r blk frame hblk =>
    rw [fresh, Bool.and_eq_true] at hfresh
    obtain ⟨frame', d₁, h₁, hrun⟩ := bind_eq_ok.mp hrun
    obtain ⟨blk', d₂, h₂, hret⟩ := bind_eq_ok.mp hrun
    obtain ⟨rfl, rfl⟩ := pure_eq_ok.mp hret
    obtain ⟨-, -, -, slot, id, ts, hframe, hvar, hslot⟩ := allocaScan_spec h₁
    have hrow := rowResolves_iff hframe hvar hslot ((binds_eachStatement blk h₂).trans hafter)
    have hfree := freeAll_congr (eachStatement_erase blk h₂)
    have hblk' := eachStatement_rowsResolve_of hblk hfresh.2 h₂ (scanCode_succeeds hcode).2 hafter
    rw [RowsResolve, rowsLast, Bool.and_eq_true, decide_eq_true_eq, hfree, hrow, hblk']
  | ifStmt cond ts fs hts hfs =>
    rw [fresh, Bool.and_eq_true] at hfresh
    obtain ⟨ts', d₁, h₁, hrun⟩ := bind_eq_ok.mp hrun
    obtain ⟨fs', d₂, h₂, hret⟩ := bind_eq_ok.mp hrun
    obtain ⟨rfl, rfl⟩ := pure_eq_ok.mp hret
    obtain ⟨hct, hcf⟩ := ifCode_succeeds hcode
    have helse : Binds (bindersElse fs) d₁ d₂ ∧
        (RowsResolveElse c₂ fs' ↔ rowsLastElse after fs = true) := by
      cases fs with
      | none =>
        obtain ⟨rfl, rfl⟩ := pure_eq_ok.mp h₂
        exact ⟨binds_of_eq List.prefix_rfl rfl, by simp [RowsResolveElse, rowsLastElse]⟩
      | some fs =>
        obtain ⟨fs₁, d₃, h₃, hret⟩ := bind_eq_ok.mp h₂
        obtain ⟨rfl, rfl⟩ := pure_eq_ok.mp hret
        exact ⟨binds_eachStatement fs h₃,
          eachStatement_rowsResolve_of (hfs fs rfl) hfresh.2 h₃ hcf hafter⟩
    have hts' := eachStatement_rowsResolve_of hts hfresh.1 h₁ hct (helse.1.trans hafter)
    rw [RowsResolve, rowsLast, Bool.and_eq_true, hts', helse.2]
  | define schema name => exact scanFree_rowsResolve rfl (Statement.visit_erase _ hrun)
  | jump t => exact scanFree_rowsResolve rfl (Statement.visit_erase _ hrun)
  | emit stack e => exact scanFree_rowsResolve rfl (Statement.visit_erase _ hrun)
  | insert table e frame => exact scanFree_rowsResolve rfl (Statement.visit_erase _ hrun)
  | letStmt name e type => exact scanFree_rowsResolve rfl (Statement.visit_erase _ hrun)
  | defineTuple name type => exact scanFree_rowsResolve rfl (Statement.visit_erase _ hrun)
  | exprStatement stack e => exact scanFree_rowsResolve rfl (Statement.visit_erase _ hrun)

end

theorem generate_rowsResolve {ss ss' : List Statement} {c c' : Ctx} (hfresh : freshAll ss = true)
    (h : (generate ss).run c = .ok (ss', c')) :
    RowsResolveAll c' ss' ↔ rowsLastAll [] ss = true := by
  simp only [generate, bind_eq_ok, createBlock_eq_ok, setInsertPoint_eq_ok, emitInstr_eq_ok,
    pure_eq_ok] at h
  obtain ⟨_, _, ⟨rfl, rfl⟩, _, c₂, -, ss₂, c₃, halloca, _, c₄, hcode, _, _, rfl, rfl, rfl⟩ := h
  have hemits : Ctx.Emits c₃ (c₄.append (.ret (int1 true))) :=
    (codegenAll_emits _ _ hcode).tail (Ctx.Update.append c₄ _)
  have hafter : Binds [] c₃ (c₄.append (.ret (int1 true))) :=
    binds_of_eq (by rw [hemits.slots_eq]) hemits.vars_eq
  exact eachStatement_rowsResolve_of (fun s _ => s.visit_rowsResolve) hfresh halloca
    ⟨_, _, _, hcode⟩ hafter

/-- In a compiled program, every reference to a row name whose innermost binder is a `Scan`
resolves to the row of that `Scan` exactly when every such `Scan` is the last to bind its row
name. The tables of the final context are those that all code was generated with. -/
theorem scanRows_resolve_iff {ss ss' : List Statement} {c : Ctx} (hfresh : freshAll ss = true)
    (h : (compile ss).run Ctx.initial = .ok (ss', c)) :
    RowsResolveAll c ss' ↔ rowsLastAll [] ss = true := by
  obtain ⟨ss₁, c₁, hanalyze, hgen⟩ := bind_eq_ok.mp h
  have hfresh₁ : freshAll ss₁ = true :=
    (analyzeAll_fresh_of (fun s _ => s.analyze_fresh) hanalyze).trans hfresh
  rw [generate_rowsResolve hfresh₁ hgen, rowsLastAll_congr (analyzeAll_erase ss hanalyze)]

/-- `define<{int:x key}> name` -/
def defineKeyTable (name : Text) : Statement :=
  .define (some (tupleOfColumns [⟨text "int", none, text "x", propKey⟩])) name

/-- `scan table, row { print_int(row.x) }` -/
def printScan (table : Text) : Statement :=
  .scan table (text "row") [.exprStatement none (.functionCall {} (.variable {} (text "print_int"))
    [.memberReference {} (.variable {} (text "row")) (text "x") none])] {}

theorem scanRows_resolve_iff_one : ∃ ss c,
    (compile [defineKeyTable (text "t"), printScan (text "t")]).run Ctx.initial = .ok (ss, c) ∧
      (RowsResolveAll c ss ↔
        rowsLastAll [] [defineKeyTable (text "t"), printScan (text "t")] = true) := by
  obtain ⟨ss, c, h⟩ := run_of_isOk (p := compile [defineKeyTable (text "t"), printScan (text "t")])
    (c := Ctx.initial) (by decide_cbv)
  exact ⟨ss, c, h, scanRows_resolve_iff (by decide) h⟩

/-- Two tables scanned one after the other under the same row name. -/
def twoScans : List Statement :=
  [defineKeyTable (text "a"), defineKeyTable (text "b"), printScan (text "a"), printScan (text "b")]

/-- The first scan prints from the row of the second one. -/
theorem twoScans_not_resolved : ∃ ss c, (compile twoScans).run Ctx.initial = .ok (ss, c) ∧
    ¬RowsResolveAll c ss := by
  obtain ⟨ss, c, h⟩ := run_of_isOk (p := compile twoScans) (c := Ctx.initial) (by decide_cbv)
  obtain ⟨ss₁, c₁, hanalyze, hgen⟩ := bind_eq_ok.mp h
  have hfresh : freshAll ss₁ = true :=
    (analyzeAll_fresh_of (fun s _ => s.analyze_fresh) hanalyze).trans (by decide)
  refine ⟨ss, c, h, ?_⟩
  rw [generate_rowsResolve hfresh hgen, rowsLastAll_congr (analyzeAll_erase twoScans hanalyze)]
  decide

end Reir
