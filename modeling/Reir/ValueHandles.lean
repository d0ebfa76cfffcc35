import Reir.RowCodec

/-! Values as the handles they are: a copy shares the cell of its source, and an assignment writes
into the cell of its target. -/
namespace Reir
open ByteMemory

/-- A variable of class `Value` or of class `MaybeValue`. Only the second can be null. -/
inductive Handle
  | value (cell : ℕ)
  | maybe (present : Bool) (cell : ℕ)
  deriving DecidableEq, Repr

namespace Handle

def cell : Handle → ℕ
  | .value c => c
  | .maybe _ c => c

def present : Handle → Bool
  | .value _ => true
  | .maybe p _ => p

def nullable : Handle → Bool
  | .value _ => false
  | .maybe _ _ => true

/-- `exists_` of a `MaybeValue` is set; a `Value` has none. -/
def mark (p : Bool) : Handle → Handle
  | .value c => .value c
  | .maybe _ c => .maybe p c

@[simp]
theorem cell_mark (p : Bool) (h : Handle) : (h.mark p).cell = h.cell := by
  cases h <;> rfl

end Handle

/-- The cells and the variables, in the order of their construction. -/
structure Heap where
  cells : List Value
  vars : List Handle
  held : ∀ h ∈ vars, h.cell < cells.length

/-- The operations of the two classes on variables given by their positions. `copy` is copy
construction of one variable or, for a vector copied or filled, of several, and `copyValue` and
`set` reach the value of a `MaybeValue` through `value()`. -/
inductive Operation
  | value (v : Value)
  | maybe (v : MaybeValue)
  | copy (xs : List ℕ)
  | copyValue (x : ℕ)
  | assign (x y : ℕ)
  | set (x : ℕ) (v : Value)
  | makeNull (x : ℕ)
  | decode (a : Attribute) (m : Memory) (off x : ℕ)

namespace Heap

def empty : Heap := ⟨[], [], by simp⟩

abbrev Held (s : Heap) := {h : Handle // h.cell < s.cells.length}

def lookup (s : Heap) (x : ℕ) : Option s.Held :=
  if hx : x < s.vars.length then some ⟨s.vars[x], s.held _ (List.getElem_mem hx)⟩ else none

def content (s : Heap) (h : Handle) : Value := s.cells.getD h.cell .unknown

/-- `new ValueImpl(v)`, its address one past the cells so far. -/
def fresh (s : Heap) (v : Value) : Heap where
  cells := s.cells ++ [v]
  vars := s.vars
  held h hh := by
    have hlt := s.held h hh
    rw [List.length_append]
    omega

/-- Variables constructed on cells that are there. -/
def share (s : Heap) (hs : List s.Held) : Heap where
  cells := s.cells
  vars := s.vars ++ hs.map Subtype.val
  held h hh := by
    rcases List.mem_append.mp hh with hh | hh
    · exact s.held h hh
    · obtain ⟨k, -, rfl⟩ := List.mem_map.mp hh
      exact k.2

def newValue (s : Heap) (v : Value) : Heap :=
  (s.fresh v).share [⟨.value s.cells.length, by simp [fresh, Handle.cell]⟩]

/-- A null still has a cell of its own. -/
def newMaybe (s : Heap) (v : MaybeValue) : Heap :=
  (s.fresh (v.getD .unknown)).share
    [⟨.maybe v.isSome s.cells.length, by simp [fresh, Handle.cell]⟩]

/-- `ValueImpl::operator=`: the cell is overwritten, the handle stays. -/
def write (s : Heap) (x : ℕ) (p : Bool) (v : Value) : Option Heap := do
  let h ← s.lookup x
  some {
    cells := s.cells.set h.1.cell v
    vars := s.vars.set x (h.1.mark p)
    held := by
      intro k hk
      rw [List.length_set]
      rcases List.mem_or_eq_of_mem_set hk with hk | rfl
      · exact s.held k hk
      · rw [Handle.cell_mark]
        exact h.2 }

/-- A failed assertion ends the run. What `decode` throws leaves the variables as they are. -/
def step (s : Heap) : Operation → Option Heap
  | .value v => some (s.newValue v)
  | .maybe v => some (s.newMaybe v)
  | .copy xs => do
    let hs ← xs.mapM s.lookup
    some (s.share hs)
  | .copyValue x => do
    let h ← s.lookup x
    if h.1.present then some (s.share [⟨.value h.1.cell, h.2⟩]) else none
  | .assign x y => do
    let h ← s.lookup x
    let k ← s.lookup y
    if h.1.nullable || k.1.present then s.write x k.1.present (s.content k.1) else none
  | .set x v => do
    let h ← s.lookup x
    if h.1.present then s.write x true v else none
  | .makeNull x => do
    let h ← s.lookup x
    if h.1.nullable then s.write x false .unknown else none
  | .decode a m off x => do
    let h ← s.lookup x
    if h.1.nullable then
      match a.decode m off with
      | .ok none => s.write x false .unknown
      | .ok (some v) => s.write x true v
      | .error _ => some s
    else none

def run (s : Heap) : List Operation → Option Heap
  | [] => some s
  | op :: ops => do
    let s ← s.step op
    s.run ops

end Heap

/-- What a variable holds where no cell is shared. -/
inductive Owned
  | value (v : Value)
  | maybe (v : MaybeValue)
  deriving DecidableEq, Repr

namespace Owned

def observed : Owned → MaybeValue
  | .value v => some v
  | .maybe v => v

def nullable : Owned → Bool
  | .value _ => false
  | .maybe _ => true

def store (v : MaybeValue) : Owned → Owned
  | .value _ => .value (v.getD .unknown)
  | .maybe _ => .maybe v

end Owned

abbrev Variables := List Owned

namespace Variables

def write (t : Variables) (x : ℕ) (v : MaybeValue) : Option Variables := do
  let o ← t[x]?
  some (t.set x (o.store v))

def step (t : Variables) : Operation → Option Variables
  | .value v => some (t ++ [.value v])
  | .maybe v => some (t ++ [.maybe v])
  | .copy xs => do
    let os ← xs.mapM fun x => t[x]?
    some (t ++ os)
  | .copyValue x => do
    let o ← t[x]?
    let v ← o.observed
    some (t ++ [.value v])
  | .assign x y => do
    let o ← t[x]?
    let r ← t[y]?
    if o.nullable || r.observed.isSome then t.write x r.observed else none
  | .set x v => do
    let o ← t[x]?
    if o.observed.isSome then t.write x (some v) else none
  | .makeNull x => do
    let o ← t[x]?
    if o.nullable then t.write x none else none
  | .decode a m off x => do
    let o ← t[x]?
    if o.nullable then
      match a.decode m off with
      | .ok v => t.write x v
      | .error _ => some t
    else none

def run (t : Variables) : List Operation → Option Variables
  | [] => some t
  | op :: ops => do
    let t ← t.step op
    t.run ops

end Variables

namespace Heap

def owned (s : Heap) : Handle → Owned
  | .value c => .value (s.content (.value c))
  | .maybe p c => .maybe (if p then some (s.content (.maybe p c)) else none)

/-- What every variable observes. -/
def view (s : Heap) : Variables := s.vars.map s.owned

theorem nullable_owned (s : Heap) (h : Handle) : (s.owned h).nullable = h.nullable := by
  cases h <;> rfl

theorem observed_owned (s : Heap) (h : Handle) :
    (s.owned h).observed = if h.present then some (s.content h) else none := by
  cases h with
  | value c => rfl
  | maybe p c => rfl

theorem lookup_eq_some {s : Heap} {x : ℕ} {h : s.Held} :
    s.lookup x = some h ↔ s.vars[x]? = some h.1 := by
  rw [lookup, List.getElem?_eq_some_iff]
  split
  · rename_i hx
    simp [Subtype.ext_iff, hx]
  · rename_i hx
    simp [hx]

theorem getElem?_view (s : Heap) (x : ℕ) :
    s.view[x]? = (s.lookup x).map fun h => s.owned h.1 := by
  rw [view, List.getElem?_map, lookup]
  split
  · rename_i hx
    simp [hx]
  · rename_i hx
    simp [not_lt.mp hx]

theorem owned_eq_iff {s s' : Heap} {h : Handle} :
    s'.owned h = s.owned h ↔ (h.present → s'.content h = s.content h) := by
  cases h with
  | value c => simp [owned, Handle.present]
  | maybe p c => cases p <;> simp [owned, Handle.present]

theorem view_fresh (s : Heap) (v : Value) : (s.fresh v).view = s.view := by
  refine List.map_congr_left fun h hh => owned_eq_iff.mpr fun _ => ?_
  have hlt := s.held h hh
  simp [content, fresh, List.getElem?_append_left hlt]

theorem view_share (s : Heap) (hs : List s.Held) :
    (s.share hs).view = s.view ++ hs.map fun h => s.owned h.1 := by
  have heq : (s.share hs).owned = s.owned := by
    funext h
    exact owned_eq_iff.mpr fun _ => rfl
  have hvars : (s.share hs).view = (s.vars ++ hs.map Subtype.val).map s.owned := by
    rw [← heq]
    rfl
  rw [hvars, List.map_append, List.map_map]
  rfl

theorem content_fresh (s : Heap) (v : Value) (h : Handle) (hc : h.cell = s.cells.length) :
    (s.fresh v).content h = v := by
  simp [content, fresh, hc]

theorem view_newValue (s : Heap) (v : Value) : (s.newValue v).view = s.view ++ [.value v] := by
  rw [newValue, view_share, view_fresh]
  have hc := s.content_fresh v (.value s.cells.length) rfl
  exact congrArg (fun w => s.view ++ [Owned.value w]) hc

theorem view_newMaybe (s : Heap) (v : MaybeValue) : (s.newMaybe v).view = s.view ++ [.maybe v] := by
  rw [newMaybe, view_share, view_fresh]
  cases v with
  | none => rfl
  | some v =>
    have hc := s.content_fresh v (.maybe true s.cells.length) rfl
    exact congrArg (fun w => s.view ++ [Owned.maybe (some w)]) hc

theorem mapM_lookup (s : Heap) (xs : List ℕ) :
    (xs.mapM fun x => s.view[x]?) = (xs.mapM s.lookup).map fun hs => hs.map fun h => s.owned h.1 := by
  induction xs with
  | nil => rfl
  | cons x xs ih =>
    rw [List.mapM_cons, List.mapM_cons, ih, getElem?_view]
    cases s.lookup x with
    | none => rfl
    | some h =>
      cases xs.mapM s.lookup with
      | none => rfl
      | some hs => rfl

/-- Every other variable that has the cell of `x` and is not null holds the value already. -/
def Keeps (s : Heap) (x : ℕ) (v : Value) : Prop :=
  ∀ h, s.vars[x]? = some h → ∀ y k, y ≠ x → s.vars[y]? = some k → k.cell = h.cell → k.present →
    s.content k = v

theorem content_set {s s' : Heap} {c : ℕ} {v : Value} (hs : s'.cells = s.cells.set c v)
    (hc : c < s.cells.length) (k : Handle) :
    s'.content k = if k.cell = c then v else s.content k := by
  rw [content, hs, content, List.getD_eq_getElem?_getD, List.getD_eq_getElem?_getD]
  by_cases hk : k.cell = c
  · simp [hk, hc]
  · rw [List.getElem?_set_ne (Ne.symm hk), if_neg hk]

theorem owned_mark {s s' : Heap} {h : Handle} {p : Bool} {v : Value} (hv : s'.content h = v)
    (hp : h.nullable ∨ p) :
    s'.owned (h.mark p) = (s.owned h).store (if p then some v else none) := by
  have hm : s'.content (h.mark p) = v := by
    rw [← hv, content, content, Handle.cell_mark]
  cases h with
  | value c =>
    have hp' : p = true := by simpa [Handle.nullable] using hp
    rw [hp'] at hm ⊢
    exact congrArg Owned.value hm
  | maybe q c =>
    cases p with
    | false => rfl
    | true => exact congrArg (fun w => Owned.maybe (some w)) hm

/-- A variable that does not share the cell, and one that is null, sees nothing of the write. -/
theorem view_write_iff {s : Heap} {x : ℕ} {h : s.Held} (hx : s.lookup x = some h) {p : Bool}
    (v : Value) (hp : h.1.nullable ∨ p) :
    (s.write x p v).map view = s.view.write x (if p then some v else none) ↔ s.Keeps x v := by
  have hvar : s.vars[x]? = some h.1 := lookup_eq_some.mp hx
  have hlt : x < s.vars.length := (List.getElem?_eq_some_iff.mp hvar).1
  rw [write, hx, Variables.write, getElem?_view, hx]
  simp only [Option.bind_eq_bind, Option.bind_some, Option.map_some, Option.some.injEq]
  generalize hs' : Heap.mk _ _ _ = s'
  have hcells : s'.cells = s.cells.set h.1.cell v := by rw [← hs']
  have hview : s'.view = (s.vars.set x (h.1.mark p)).map s'.owned := by
    rw [view, ← hs']
  have hcontent := content_set hcells h.2
  have hself := owned_mark (s := s) (v := v) (by rw [hcontent, if_pos rfl]) hp
  rw [hview, List.map_set, hself]
  constructor
  · intro heq g hg y k hy hk hcell hpres
    rw [hvar, Option.some.injEq] at hg
    subst hg
    have hat := congrArg (fun l => l[y]?) heq
    simp only [List.getElem?_set_ne (Ne.symm hy), view, List.getElem?_map, hk, Option.map_some,
      Option.some.injEq] at hat
    have hsame := owned_eq_iff.mp hat hpres
    rw [hcontent, if_pos hcell] at hsame
    exact hsame.symm
  · intro hkeep
    refine List.ext_getElem? fun y => ?_
    by_cases hy : y = x
    · subst hy
      simp [view, hlt]
    · rw [List.getElem?_set_ne (Ne.symm hy), List.getElem?_set_ne (Ne.symm hy), view,
        List.getElem?_map, List.getElem?_map]
      cases hk : s.vars[y]? with
      | none => rfl
      | some k =>
        rw [Option.map_some, Option.map_some, owned_eq_iff.mpr]
        intro hpres
        rw [hcontent]
        split
        · rename_i hcell
          exact (hkeep h.1 hvar y k hy hk hcell hpres).symm
        · rfl

/-- No other variable that is not null changes with the operation. -/
def Harmless (s : Heap) : Operation → Prop
  | .assign x y => ∀ k, s.vars[y]? = some k → s.Keeps x (s.content k)
  | .set x v => s.Keeps x v
  | .makeNull x => s.Keeps x .unknown
  | .decode a m off x =>
    match a.decode m off with
    | .ok v => s.Keeps x (v.getD .unknown)
    | .error _ => True
  | _ => True

theorem view_step_iff (s : Heap) (op : Operation) :
    (s.step op).map view = s.view.step op ↔ ∀ s', s.step op = some s' → s.Harmless op := by
  cases op with
  | value v => simp [step, Variables.step, view_newValue, Harmless]
  | maybe v => simp [step, Variables.step, view_newMaybe, Harmless]
  | copy xs =>
    have hsame : (s.step (.copy xs)).map view = s.view.step (.copy xs) := by
      rw [step, Variables.step, mapM_lookup]
      cases xs.mapM s.lookup with
      | none => rfl
      | some hs => exact congrArg some (s.view_share hs)
    simp [hsame, Harmless]
  | copyValue x =>
    have hsame : (s.step (.copyValue x)).map view = s.view.step (.copyValue x) := by
      rw [step, Variables.step, getElem?_view]
      cases s.lookup x with
      | none => rfl
      | some h =>
        simp only [Option.bind_eq_bind, Option.bind_some, Option.map_some, observed_owned]
        split
        · exact congrArg some (s.view_share _)
        · rfl
    simp [hsame, Harmless]
  | assign x y =>
    rw [step, Variables.step, getElem?_view, getElem?_view]
    cases hx : s.lookup x with
    | none => simp
    | some h =>
      cases hy : s.lookup y with
      | none => simp
      | some k =>
        have hk := lookup_eq_some.mp hy
        simp only [Option.bind_eq_bind, Option.bind_some, Option.map_some, nullable_owned,
          observed_owned, Harmless, hk, Option.some.injEq, forall_eq']
        by_cases hp : (h.1.nullable || k.1.present) = true
        · rw [if_pos hp, if_pos (by simpa using hp), view_write_iff hx _ (by simpa using hp)]
          simp [write, hx]
        · rw [if_neg hp, if_neg (by simpa using hp)]
          simp
  | set x v =>
    rw [step, Variables.step, getElem?_view]
    cases hx : s.lookup x with
    | none => simp
    | some h =>
      simp only [Option.bind_eq_bind, Option.bind_some, Option.map_some, observed_owned,
        Option.isSome_ite, Harmless]
      by_cases hp : h.1.present = true
      · have hwrite := view_write_iff hx (p := true) v (.inr rfl)
        rw [if_pos hp, if_pos hp]
        exact hwrite.trans (by simp [write, hx])
      · simp [hp]
  | makeNull x =>
    rw [step, Variables.step, getElem?_view]
    cases hx : s.lookup x with
    | none => simp
    | some h =>
      simp only [Option.bind_eq_bind, Option.bind_some, Option.map_some, nullable_owned, Harmless]
      by_cases hp : h.1.nullable = true
      · have hwrite := view_write_iff hx (p := false) .unknown (.inl hp)
        rw [if_pos hp, if_pos hp]
        exact hwrite.trans (by simp [write, hx])
      · simp [hp]
  | decode a m off x =>
    rw [step, Variables.step, getElem?_view]
    cases hx : s.lookup x with
    | none => simp
    | some h =>
      simp only [Option.bind_eq_bind, Option.bind_some, Option.map_some, nullable_owned, Harmless]
      by_cases hp : h.1.nullable = true
      · rw [if_pos hp, if_pos hp]
        cases a.decode m off with
        | error e => simp
        | ok v =>
          cases v with
          | none => exact (view_write_iff hx (p := false) .unknown (.inl hp)).trans (by simp [write, hx])
          | some v => exact (view_write_iff hx (p := true) v (.inr rfl)).trans (by simp [write, hx])
      · simp [hp]

theorem run_cons (s : Heap) (op : Operation) (ops : List Operation) :
    s.run (op :: ops) = (s.step op).bind fun s' => s'.run ops := rfl

/-- After every operation the variables observe what they do with values of their own. -/
def Independent (s : Heap) (ops : List Operation) : Prop :=
  ∀ p, p <+: ops → (s.run p).map view = s.view.run p

def HarmlessRun (s : Heap) (ops : List Operation) : Prop :=
  ∀ p op, p ++ [op] <+: ops → ∀ u u', s.run p = some u → u.step op = some u' → u.Harmless op

theorem independent_cons_iff (s : Heap) (op : Operation) (ops : List Operation) :
    s.Independent (op :: ops) ↔
      (s.step op).map view = s.view.step op ∧ ∀ s', s.step op = some s' → s'.Independent ops := by
  constructor
  · intro h
    have hop : (s.step op).map view = s.view.step op := by
      have hone := h [op] (by simp)
      simpa [run, Variables.run] using hone
    refine ⟨hop, fun s' hs' p hp => ?_⟩
    have hmore := h (op :: p) (by simpa using hp)
    have hview : s.view.step op = some s'.view := by rw [← hop, hs', Option.map_some]
    rw [run_cons, hs', Variables.run, hview] at hmore
    exact hmore
  · rintro ⟨hop, hrest⟩ p hp
    cases p with
    | nil => rfl
    | cons q p =>
      obtain ⟨rfl, hrestp⟩ := List.cons_prefix_cons.mp hp
      rw [run_cons, Variables.run, ← hop]
      cases hs : s.step q with
      | none => rfl
      | some s' => exact hrest s' hs p hrestp

theorem harmlessRun_cons_iff (s : Heap) (op : Operation) (ops : List Operation) :
    s.HarmlessRun (op :: ops) ↔
      (∀ s', s.step op = some s' → s.Harmless op) ∧
        ∀ s', s.step op = some s' → s'.HarmlessRun ops := by
  constructor
  · intro h
    refine ⟨fun s' hs' => h [] op (by simp) s s' rfl hs', ?_⟩
    intro s' hs' p q hp u u' hu hu'
    exact h (op :: p) q (by simpa using hp) u u' (by rw [run_cons, hs']; exact hu) hu'
  · rintro ⟨hop, hrest⟩ p q hp u u' hu hu'
    cases p with
    | nil =>
      obtain ⟨rfl, -⟩ := List.cons_prefix_cons.mp hp
      cases hu
      exact hop u' hu'
    | cons r p =>
      obtain ⟨rfl, hrestp⟩ := List.cons_prefix_cons.mp hp
      rw [run_cons] at hu
      obtain ⟨s', hs', hu⟩ := Option.bind_eq_some_iff.mp hu
      exact hrest s' hs' p q hrestp u u' hu hu'

theorem independent_iff_harmlessRun (s : Heap) (ops : List Operation) :
    s.Independent ops ↔ s.HarmlessRun ops := by
  induction ops generalizing s with
  | nil =>
    constructor
    · intro _ p op hp
      simp at hp
    · intro _ p hp
      rw [List.prefix_nil.mp hp]
      rfl
  | cons op ops ih =>
    rw [independent_cons_iff, harmlessRun_cons_iff, view_step_iff]
    simp only [ih]

end Heap

/-- The variables of every run observe independent values exactly when no operation of the run
overwrites, with another value, a cell that a second variable holds. -/
theorem values_independent_iff (ops : List Operation) :
    Heap.empty.Independent ops ↔ Heap.empty.HarmlessRun ops :=
  Heap.independent_iff_harmlessRun Heap.empty ops

/-- `Value a(1); Value b(a); b = 2;` changes `a`. -/
theorem copiedValue_not_independent :
    ¬ Heap.empty.Independent [.value (.int 1), .copy [0], .set 1 (.int 2)] := by
  intro h
  have hall := h _ (List.prefix_refl _)
  revert hall
  decide_cbv

end Reir
