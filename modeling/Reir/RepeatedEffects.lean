import Reir.Evaluation

/-! Stores of assignments and calls in the code of an expression. A direct evaluation performs those
that it reaches once, whatever outside code answers. The code evaluates the elements of row literals
twice; it performs the same ones as long as no element performs any when it is evaluated again. -/
namespace Reir
open Gen BlockGraph StructuredCode

/-- The tag of an event that is the store of an assignment or the call of a function. -/
def Event.effect : Event → Option Tag
  | .store tag _ => if tag.origin = .assign then some tag else none
  | .call tag _ _ _ _ => if tag.origin = .functionCall then some tag else none
  | _ => none

/-- The stores of assignments and the calls of functions so far. -/
def Data.effects (d : Data) : List Event := d.trace.filter fun e => e.effect.isSome

namespace Data
variable (d : Data)

theorem effects_note (e : Event) :
    (d.note e).effects = d.effects ++ if e.effect.isSome then [e] else [] := by
  rw [effects, note, List.filter_append, effects]
  congr 1
  cases h : e.effect <;> simp [h]

theorem effects_note_none {e : Event} (h : e.effect = none) : (d.note e).effects = d.effects := by
  rw [effects_note, h]
  exact List.append_nil _

@[simp] theorem effects_bare : d.bare.effects = d.effects := rfl

@[simp] theorem effects_setMem (s : ℕ) (v : Val) : (d.setMem s v).effects = d.effects := rfl

end Data

mutual

/-- The assignments and the calls of an expression, in the order of evaluation. -/
def Expression.effectTags : Expression → List Tag
  | .binary _ l _ r => l.effectTags ++ r.effectTags
  | .rowLiteral _ es => effectTagsAll es
  | .arrayLiteral _ es => effectTagsAll es
  | .functionCall n _ as => effectTagsAll as ++ [⟨.functionCall, n.node⟩]
  | .assign n _ v => v.effectTags ++ [⟨.assign, n.node⟩]
  | _ => []

def effectTagsAll : List Expression → List Tag
  | [] => []
  | e :: es => e.effectTags ++ effectTagsAll es

end

/-- The contents of the slots. -/
abbrev Slots := ℕ → Val

/-- What an action may do to the slots, with its result and its effects, and whether it may come to
an element of a row literal that performs an effect again. -/
structure Act (α : Type) where
  performs : Slots → α → Slots → List Event → Prop
  repeats : Slots → Prop

namespace Act
variable {α β : Type}

def yield (a : α) : Act α := ⟨fun m b m' es => b = a ∧ m' = m ∧ es = [], fun _ => False⟩

def ofOption (o : Option α) : Act α :=
  ⟨fun m b m' es => o = some b ∧ m' = m ∧ es = [], fun _ => False⟩

def andThen (p : Act α) (f : α → Act β) : Act β where
  performs m b m' es := ∃ a m₁ es₁ es₂, p.performs m a m₁ es₁ ∧ (f a).performs m₁ b m' es₂ ∧
    es = es₁ ++ es₂
  repeats m := p.repeats m ∨ ∃ a m₁ es, p.performs m a m₁ es ∧ (f a).repeats m₁

instance : Monad Act where
  pure := yield
  bind := andThen

/-- The contents of memory at an address. -/
def fetch (p : Val) : Act Val where
  performs m v m' es := p.isAddress = true ∧ m' = m ∧ es = [] ∧ ∃ d : Data, d.mem = m ∧ v = d.fetch p
  repeats _ := False

def write (i : ℕ) (v : Val) : Act Unit :=
  ⟨fun m _ m' es => m' = Function.update m i v ∧ es = [], fun _ => False⟩

/-- The store of an assignment. -/
def assign (tag : Tag) (i : ℕ) (v : Val) : Act Unit :=
  ⟨fun m _ m' es => m' = Function.update m i v ∧ es = [.store tag (some i)], fun _ => False⟩

/-- A call, with any answer of outside code. -/
def call (tag : Tag) (f : Text) (args : List Val) : Act Val where
  performs m v m' es := ∃ d : Data, d.mem = m ∧ v = d.result f ∧ m' = (d.call 0 tag f args).mem ∧
    es = [.call tag f args (args.map d.behind) v]
  repeats _ := False

/-- An element of a row literal, which should not perform an effect when it is evaluated again, nor
give another value then if it has performed one before. -/
def element (p : Act α) : Act α where
  performs := p.performs
  repeats m := p.repeats m ∨ ∃ v m' es, p.performs m v m' es ∧ (p.repeats m' ∨
    ∃ v' m'' es', p.performs m' v' m'' es' ∧ (es' ≠ [] ∨ es ≠ [] ∧ v' ≠ v))

/-- The value that is inserted for an element. -/
def field (k : Kind) (v : Val) : Act Val :=
  match k with
  | .pointer _ => fetch v
  | _ => pure v

/-- The value that is passed for an argument. -/
def pass (k : Kind) (stack : Option ℕ) (v : Val) : Act Val :=
  match k with
  | .pointer true => fetch v
  | .struct => do
    let s ← ofOption stack
    write s v
    pure (.ptr s [])
  | _ => pure v

/-- The second operand is evaluated if the first is `forAnd`. -/
def second (forAnd : Bool) (a : Val) (r : Act Val) : Act Val :=
  match a with
  | .bool b => if b = forAnd then r else pure (.bool b)
  | _ => ofOption none

end Act

mutual

/-- The direct evaluation of an expression. -/
def Expression.direct (T : Ctx) : Expression → Act Val
  | .primary _ v => pure v.val
  | .binary _ l .conditionalAnd r => do
    let a ← l.direct T
    Act.second true (a.toBit (l.kind T)) (Val.toBit (r.kind T) <$> r.direct T)
  | .binary _ l .conditionalOr r => do
    let a ← l.direct T
    Act.second false (a.toBit (l.kind T)) (Val.toBit (r.kind T) <$> r.direct T)
  | .binary _ l op r => do
    let a ← l.direct T
    let b ← r.direct T
    Act.ofOption (op.apply a b)
  | .rowLiteral _ es => Val.tuple <$> directRow T es
  | .arrayLiteral _ es => Val.tuple <$> directAll T es
  | .variable _ x => do
    let i ← Act.ofOption (T.vars x).join
    Act.fetch (.ptr i [])
  | .functionCall n (.variable _ f) as => do
    let args ← directArgs T as
    Act.call ⟨.functionCall, n.node⟩ f args
  | .assign n (.variable _ x) v => do
    let i ← Act.ofOption (T.vars x).join
    let a ← v.direct T
    Act.assign ⟨.assign, n.node⟩ i a
    pure a
  | _ => Act.ofOption none

def directRow (T : Ctx) : List Expression → Act (List Val)
  | [] => pure []
  | e :: es => do
    let v ← (e.direct T).element
    let w ← Act.field (e.kind T) v
    let ws ← directRow T es
    pure (w :: ws)

def directAll (T : Ctx) : List Expression → Act (List Val)
  | [] => pure []
  | e :: es => do
    let v ← e.direct T
    let vs ← directAll T es
    pure (v :: vs)

def directArgs (T : Ctx) : List Expression → Act (List Val)
  | [] => pure []
  | e :: es => do
    let v ← e.direct T
    let w ← Act.pass (e.kind T) e.note.stack v
    let ws ← directArgs T es
    pure (w :: ws)

end

/-- Without an effect the slots stay what they are. -/
def Act.Keeps {α : Type} (p : Act α) : Prop := ∀ ⦃m a m'⦄, p.performs m a m' [] → m' = m

section
variable {α β : Type} {p : Act α} {f : α → Act β}

theorem slotsKept_pure (a : α) : (pure a : Act α).Keeps := fun _ _ _ h => h.2.1

theorem slotsKept_ofOption (o : Option α) : (Act.ofOption o).Keeps := fun _ _ _ h => h.2.1

theorem slotsKept_fetch (v : Val) : (Act.fetch v).Keeps := fun _ _ _ h => h.2.1

theorem slotsKept_assign (tag : Tag) (i : ℕ) (v : Val) : (Act.assign tag i v).Keeps :=
  fun _ _ _ h => absurd h.2 (by simp)

theorem Act.Keeps.bind (hp : p.Keeps) (hf : ∀ a, (f a).Keeps) : (p >>= f).Keeps := by
  rintro m b m' ⟨a, m₁, es₁, es₂, h₁, h₂, hnil⟩
  obtain ⟨rfl, rfl⟩ := List.append_eq_nil_iff.mp hnil.symm
  exact (hf a h₂).trans (hp h₁)

theorem Act.Keeps.map (hp : p.Keeps) (g : α → β) : (g <$> p).Keeps := hp.bind fun _ => slotsKept_pure _

/-- A call is an effect. -/
theorem slotsKept_call (p : Act (List Val)) (tag : Tag) (f : Text) :
    (p >>= fun args => Act.call tag f args).Keeps := by
  rintro m b m' ⟨a, m₁, es₁, es₂, -, ⟨d, -, -, -, rfl⟩, hnil⟩
  exact absurd hnil (by simp)

theorem slotsKept_field (k : Kind) (v : Val) : (Act.field k v).Keeps := by
  cases k with
  | pointer b => exact slotsKept_fetch v
  | _ => exact slotsKept_pure v

theorem slotsKept_second {r : Act Val} (hr : r.Keeps) (forAnd : Bool) (a : Val) :
    (Act.second forAnd a r).Keeps := by
  cases a with
  | bool b =>
    change (if b = forAnd then r else Pure.pure (Val.bool b)).Keeps
    split_ifs
    · exact hr
    · exact slotsKept_pure _
  | _ => exact slotsKept_ofOption _

variable {T : Ctx} {es : List Expression}

theorem slotsKept_directRow (h : ∀ e ∈ es, (e.direct T).Keeps) : (directRow T es).Keeps := by
  induction es with
  | nil => exact slotsKept_pure _
  | cons e es ih =>
    rw [List.forall_mem_cons] at h
    have helement : (e.direct T).element.Keeps := h.1
    exact helement.bind fun v => (slotsKept_field _ v).bind fun _ => (ih h.2).bind fun _ => slotsKept_pure _

theorem slotsKept_directAll (h : ∀ e ∈ es, (e.direct T).Keeps) : (directAll T es).Keeps := by
  induction es with
  | nil => exact slotsKept_pure _
  | cons e es ih =>
    rw [List.forall_mem_cons] at h
    exact h.1.bind fun _ => (ih h.2).bind fun _ => slotsKept_pure _

theorem Expression.keeps (T : Ctx) (e : Expression) : (e.direct T).Keeps := by
  induction e using Expression.induction with
  | primary n v => exact slotsKept_pure _
  | binary n l op r hl hr =>
    cases op with
    | conditionalAnd => exact hl.bind fun _ => slotsKept_second (hr.map _) _ _
    | conditionalOr => exact hl.bind fun _ => slotsKept_second (hr.map _) _ _
    | _ => exact hl.bind fun _ => hr.bind fun _ => slotsKept_ofOption _
  | rowLiteral n es hes => exact (slotsKept_directRow hes).map _
  | arrayLiteral n es hes => exact (slotsKept_directAll hes).map _
  | variableRef n x => exact (slotsKept_ofOption _).bind fun _ => slotsKept_fetch _
  | functionCall n p as _ _ =>
    cases p with
    | «variable» m f => exact slotsKept_call _ _ _
    | _ => exact slotsKept_ofOption _
  | assign n t v _ hv =>
    cases t with
    | «variable» m x =>
      exact (slotsKept_ofOption _).bind fun _ => hv.bind fun _ => (slotsKept_assign _ _ _).bind fun _ =>
        slotsKept_pure _
    | _ => exact slotsKept_ofOption _
  | _ => exact slotsKept_ofOption _

end

/-- An evaluation does what the action allows, unless it comes to an element that performs an
effect again, and its effects are among those of the tags, each once and in this order. -/
structure Act.Allows {α : Type} (p : Act α) (f : Data → Option (α × Data)) (tags : List Tag) :
    Prop where
  runs : ∀ ⦃d a d'⦄, f d = some (a, d') → ¬p.repeats d.mem →
    ∃ es, d'.effects = d.effects ++ es ∧ p.performs d.mem a d'.mem es
  once : ∀ ⦃m a m' es⦄, p.performs m a m' es → (es.map Event.effect).Sublist (tags.map some)

namespace Act.Allows
variable {α β : Type} {p : Act α} {q : α → Act β} {f : Data → Option (α × Data)}
  {g : α → Data → Option (β × Data)} {ts us : List Tag}

theorem congr {f' : Data → Option (α × Data)} (h : p.Allows f ts) (hf : ∀ d, f d = f' d) :
    p.Allows f' ts := by
  obtain rfl : f = f' := funext hf
  exact h

theorem bind (hp : p.Allows f ts) (hq : ∀ a, (q a).Allows (g a) us) :
    (p >>= q).Allows (fun d => (f d).bind fun r => g r.1 r.2) (ts ++ us) := by
  constructor
  · intro d b d' h hquiet
    obtain ⟨⟨a, d₁⟩, h₁, h₂⟩ := Option.bind_eq_some_iff.mp h
    obtain ⟨es₁, he₁, hp₁⟩ := hp.runs h₁ fun hr => hquiet (.inl hr)
    obtain ⟨es₂, he₂, hp₂⟩ := (hq a).runs h₂ fun hr => hquiet (.inr ⟨a, d₁.mem, es₁, hp₁, hr⟩)
    refine ⟨es₁ ++ es₂, ?_, a, d₁.mem, es₁, es₂, hp₁, hp₂, rfl⟩
    rw [he₂, he₁, List.append_assoc]
  · rintro m b m' es ⟨a, m₁, es₁, es₂, h₁, h₂, rfl⟩
    rw [List.map_append, List.map_append]
    exact (hp.once h₁).append ((hq a).once h₂)

/-- Nothing happens but an event that is no effect. -/
theorem behind {e : Event} (h : p.Allows f ts) (he : e.effect = none) :
    p.Allows (fun d => f (d.note e)) ts := by
  refine ⟨fun d a d' hrun hquiet => ?_, h.once⟩
  obtain ⟨es, hes, hp⟩ := h.runs hrun hquiet
  rw [Data.effects_note_none _ he] at hes
  exact ⟨es, hes, hp⟩

end Act.Allows

section
variable {α β : Type} {p : Act α} {f : Data → Option (α × Data)} {ts us : List Tag}

theorem allows_pure (a : α) (ts : List Tag) : (pure a : Act α).Allows (fun d => some (a, d)) ts := by
  constructor
  · intro d b d' h _
    obtain ⟨rfl, rfl⟩ := Prod.mk.inj (Option.some.inj h)
    exact ⟨[], (List.append_nil _).symm, rfl, rfl, rfl⟩
  · rintro m b m' es ⟨-, -, rfl⟩
    exact List.nil_sublist _

theorem allows_ofOption (o : Option α) (ts : List Tag) :
    (Act.ofOption o).Allows (fun d => o.map fun a => (a, d)) ts := by
  constructor
  · intro d b d' h _
    obtain ⟨a, rfl, heq⟩ := Option.map_eq_some_iff.mp h
    obtain ⟨rfl, rfl⟩ := Prod.mk.inj heq
    exact ⟨[], (List.append_nil _).symm, rfl, rfl, rfl⟩
  · rintro m b m' es ⟨-, -, rfl⟩
    exact List.nil_sublist _

theorem allows_fetch (v : Val) (ts : List Tag) : (Act.fetch v).Allows (fun d => d.deref v) ts := by
  constructor
  · intro d b d' h _
    unfold Data.deref at h
    split_ifs at h with hv
    obtain ⟨rfl, rfl⟩ := Prod.mk.inj (Option.some.inj h)
    refine ⟨[], ?_, hv, rfl, rfl, d, rfl, rfl⟩
    rw [Data.effects_note_none _ rfl, List.append_nil]
  · rintro m b m' es ⟨-, -, rfl, -⟩
    exact List.nil_sublist _

theorem Act.Allows.map {h : α → β} (hp : p.Allows f ts) :
    (h <$> p).Allows (fun d => (f d).map fun r => (h r.1, r.2)) ts := by
  have hbind := hp.bind fun a => allows_pure (h a) []
  rw [List.append_nil] at hbind
  exact hbind.congr fun d => (Option.map_eq_bind ..).symm

/-- An element that performs no effect again may be evaluated twice. -/
theorem Act.Allows.element (hp : p.Allows f ts) (hkeeps : p.Keeps) :
    p.element.Allows (fun d => (f d).bind fun r => f r.2) ts := by
  refine ⟨fun d b d' h hquiet => ?_, hp.once⟩
  obtain ⟨⟨a, d₁⟩, h₁, h₂⟩ := Option.bind_eq_some_iff.mp h
  obtain ⟨es₁, he₁, hp₁⟩ := hp.runs h₁ fun hr => hquiet (.inl hr)
  have hquiet₁ : ¬p.repeats d₁.mem := fun hr => hquiet (.inr ⟨a, d₁.mem, es₁, hp₁, .inl hr⟩)
  obtain ⟨es₂, he₂, hp₂⟩ := hp.runs h₂ hquiet₁
  have hagain : ¬(es₂ ≠ [] ∨ es₁ ≠ [] ∧ b ≠ a) := fun hr =>
    hquiet (.inr ⟨a, d₁.mem, es₁, hp₁, .inr ⟨b, d'.mem, es₂, hp₂, hr⟩⟩)
  obtain rfl : es₂ = [] := by
    by_contra hne
    exact hagain (.inl hne)
  rw [List.append_nil] at he₂
  have hmem₂ : d'.mem = d₁.mem := hkeeps hp₂
  by_cases hes₁ : es₁ = []
  · -- the second evaluation stands for both
    subst hes₁
    have hmem₁ : d₁.mem = d.mem := hkeeps hp₁
    rw [hmem₁] at hp₂
    exact ⟨[], he₂.trans he₁, hp₂⟩
  · obtain rfl : b = a := by
      by_contra hne
      exact hagain (.inr ⟨hes₁, hne⟩)
    rw [← hmem₂] at hp₁
    exact ⟨es₁, he₂.trans he₁, hp₁⟩

theorem allows_field (k : Kind) (v : Val) (ts : List Tag) :
    (Act.field k v).Allows (fun d => d.field k v) ts := by
  cases k with
  | pointer b => exact allows_fetch v ts
  | _ => exact allows_pure v ts

theorem allows_write {e : Event} (he : e.effect = none) (i : ℕ) (v : Val) (ts : List Tag) :
    (Act.write i v).Allows (fun d => some ((), (d.setMem i v).note e)) ts := by
  constructor
  · intro d u d' h _
    obtain ⟨rfl, rfl⟩ := Prod.mk.inj (Option.some.inj h)
    refine ⟨[], ?_, rfl, rfl⟩
    rw [Data.effects_note_none _ he, List.append_nil]
    rfl
  · rintro m u m' es ⟨-, rfl⟩
    exact List.nil_sublist _

theorem allows_pass (k : Kind) (stack : Option ℕ) (v : Val) (ts : List Tag) :
    (Act.pass k stack v).Allows (fun d => d.pass k stack v) ts := by
  have hwrite : ∀ i, (Act.write i v >>= fun _ => Pure.pure (Val.ptr i [])).Allows
      (fun d => some (.ptr i [], (d.setMem i v).note (.store ⟨.argument, 0⟩ (some i)))) ts := by
    intro i
    have hbind := (allows_write (e := .store ⟨.argument, 0⟩ (some i)) rfl i v []).bind
      fun _ => allows_pure (Val.ptr i []) ts
    exact hbind.congr fun _ => rfl
  cases k with
  | pointer b =>
    cases b with
    | true => exact allows_fetch v ts
    | false => exact allows_pure v ts
  | struct =>
    refine ((allows_ofOption stack []).bind hwrite).congr fun d => ?_
    cases stack <;> rfl
  | _ => exact allows_pure v ts

theorem allows_call {tag : Tag} (htag : tag.origin = .functionCall) (f : Text) (args : List Val) :
    (Act.call tag f args).Allows (fun d => some (d.result f, (d.call 0 tag f args).bare)) [tag] := by
  have heffect : ∀ vs v, (Event.call tag f args vs v).effect = some tag := by simp [Event.effect, htag]
  constructor
  · intro d v d' h _
    obtain ⟨rfl, rfl⟩ := Prod.mk.inj (Option.some.inj h)
    refine ⟨[.call tag f args (args.map d.behind) (d.result f)], ?_, d, rfl, rfl, rfl, rfl⟩
    obtain ⟨ws, htrace, hws⟩ := d.call_trace_append 0 tag f args
    have hnone : ws.filter (fun e => e.effect.isSome) = [] := by
      rw [List.filter_eq_nil_iff]
      intro e he
      obtain ⟨s, rfl⟩ := hws e he
      simp [Event.effect]
    rw [Data.effects_bare, Data.effects, htrace, List.filter_append, List.filter_append, hnone]
    simp [Data.effects, heffect]
  · rintro m v m' es ⟨d, -, -, -, rfl⟩
    simp [heffect]

theorem allows_assign (tag : Tag) (htag : tag.origin = .assign) (i : ℕ) (v : Val) :
    (Act.assign tag i v).Allows
      (fun d => some ((), ((d.setMem i v).note (.store tag (some i))).note (.load (some i)))) [tag] := by
  have heffect : (Event.store tag (some i)).effect = some tag := by simp [Event.effect, htag]
  constructor
  · intro d u d' h _
    obtain ⟨rfl, rfl⟩ := Prod.mk.inj (Option.some.inj h)
    refine ⟨[.store tag (some i)], ?_, rfl, rfl⟩
    rw [Data.effects_note_none _ rfl, Data.effects_note, heffect]
    rfl
  · rintro m u m' es ⟨-, rfl⟩
    simp [heffect]

/-- The step behind the first operand. -/
def Data.second (d : Data) (forAnd : Bool) (a : Val) (r : Data → Option (Val × Data)) :
    Option (Val × Data) :=
  match a with
  | .bool b =>
    if b = forAnd then r (d.note (.branch ⟨.shortCircuit, 0⟩ b))
    else some (.bool b, d.note (.branch ⟨.shortCircuit, 0⟩ b))
  | _ => none

theorem allows_second {q : Act Val} {g : Data → Option (Val × Data)} (hq : q.Allows g us)
    (forAnd : Bool) (a : Val) :
    (Act.second forAnd a q).Allows (fun d => d.second forAnd a g) us := by
  cases a with
  | bool b =>
    by_cases hb : b = forAnd
    · have hallows := hq.behind (e := .branch ⟨.shortCircuit, 0⟩ b) rfl
      simpa [Act.second, Data.second, hb] using hallows
    · have hallows := (allows_pure (Val.bool b) us).behind (e := .branch ⟨.shortCircuit, 0⟩ b) rfl
      simpa [Act.second, Data.second, hb] using hallows
  | _ => exact allows_ofOption none us

/-- A short circuit. -/
theorem allows_shortCircuit {p q : Act Val} {f g : Data → Option (Val × Data)} (hp : p.Allows f ts)
    (hq : q.Allows g us) (forAnd : Bool) (κ κ' : Kind) :
    (p >>= fun a => Act.second forAnd (a.toBit κ) (Val.toBit κ' <$> q)).Allows
      (fun d => d.shortCircuit forAnd (bitOf κ f) (bitOf κ' g)) (ts ++ us) := by
  refine (hp.bind fun a => allows_second hq.map forAnd (a.toBit κ)).congr fun d => ?_
  unfold Data.shortCircuit bitOf
  cases f d with
  | none => rfl
  | some r => rfl

variable {T : Ctx} {es : List Expression}

theorem allows_directRow
    (h : ∀ e ∈ es, (e.direct T).Allows (e.evaluate T) e.effectTags) :
    (directRow T es).Allows (evaluateRow T es) (effectTagsAll es) := by
  induction es with
  | nil => exact allows_pure [] []
  | cons e es ih =>
    rw [List.forall_mem_cons] at h
    have hallows := (h.1.element (e.keeps T)).bind fun v => (allows_field (e.kind T) v []).bind
      fun w => (ih h.2).map (h := fun ws => w :: ws)
    exact hallows.congr fun d => by
      simp only [evaluateRow, Option.bind_eq_bind, Option.map_eq_bind, Option.bind_assoc]
      rfl

theorem allows_directAll
    (h : ∀ e ∈ es, (e.direct T).Allows (e.evaluate T) e.effectTags) :
    (directAll T es).Allows (evaluateAll T es) (effectTagsAll es) := by
  induction es with
  | nil => exact allows_pure [] []
  | cons e es ih =>
    rw [List.forall_mem_cons] at h
    exact (h.1.bind fun v => (ih h.2).map (h := fun vs => v :: vs)).congr fun d => by
      simp only [evaluateAll, Option.bind_eq_bind, Option.map_eq_bind]
      rfl

theorem allows_directArgs
    (h : ∀ e ∈ es, (e.direct T).Allows (e.evaluate T) e.effectTags) :
    (directArgs T es).Allows (evaluateArgs T es) (effectTagsAll es) := by
  induction es with
  | nil => exact allows_pure [] []
  | cons e es ih =>
    rw [List.forall_mem_cons] at h
    have hallows := h.1.bind fun v => (allows_pass (e.kind T) e.note.stack v []).bind
      fun w => (ih h.2).map (h := fun ws => w :: ws)
    exact hallows.congr fun d => by
      simp only [evaluateArgs, Option.bind_eq_bind, Option.map_eq_bind]
      rfl

/-- What the direct evaluation of an expression allows. -/
theorem Expression.allows {e : Expression} (he : e.plain = true) :
    (e.direct T).Allows (e.evaluate T) e.effectTags := by
  induction e using Expression.induction with
  | primary n v => exact allows_pure _ _
  | binary n l op r hl hr =>
    obtain ⟨hpl, hpr⟩ := Bool.and_eq_true_iff.mp he
    have hstrict : op ≠ .conditionalAnd → op ≠ .conditionalOr →
        (l.direct T >>= fun a => r.direct T >>= fun b => Act.ofOption (op.apply a b)).Allows
          ((Expression.binary n l op r).evaluate T) (l.effectTags ++ r.effectTags) := by
      intro hand hor
      have hallows := (hl hpl).bind fun a => (hr hpr).bind fun b => allows_ofOption (op.apply a b) []
      rw [List.append_nil] at hallows
      exact hallows.congr fun d => (evaluate_strict hand hor n l r d).symm
    cases op with
    | conditionalAnd => exact allows_shortCircuit (hl hpl) (hr hpr) true _ _
    | conditionalOr => exact allows_shortCircuit (hl hpl) (hr hpr) false _ _
    | _ => exact hstrict (by simp) (by simp)
  | rowLiteral n es hes =>
    refine (allows_directRow fun e h => hes e h (plainAll_iff.mp he e h)).map.congr fun d => ?_
    simp only [Expression.evaluate, Option.bind_eq_bind, Option.map_eq_bind]
    rfl
  | arrayLiteral n es hes =>
    refine (allows_directAll fun e h => hes e h (plainAll_iff.mp he e h)).map.congr fun d => ?_
    simp only [Expression.evaluate, Option.bind_eq_bind, Option.map_eq_bind]
    rfl
  | variableRef n x =>
    have hallows := (allows_ofOption (T.vars x).join []).bind fun i => allows_fetch (.ptr i []) []
    refine hallows.congr fun d => ?_
    simp only [Expression.evaluate, Option.bind_eq_bind]
    cases (T.vars x).join <;> rfl
  | functionCall n p as _ has =>
    obtain ⟨hp, has'⟩ := Bool.and_eq_true_iff.mp he
    cases p with
    | «variable» m f =>
      have hargs := allows_directArgs fun e h => has e h (plainAll_iff.mp has' e h)
      refine (hargs.bind fun args => allows_call rfl f args).congr fun d => ?_
      simp only [Expression.evaluate, Option.bind_eq_bind]
    | _ => exact absurd hp (by simp [Expression.asVariable])
  | assign n t v _ hv =>
    obtain ⟨ht, hv'⟩ := Bool.and_eq_true_iff.mp he
    cases t with
    | «variable» m x =>
      have hallows := (allows_ofOption (T.vars x).join []).bind fun i => (hv hv').bind fun a =>
        (allows_assign ⟨.assign, n.node⟩ rfl i a).bind fun _ => allows_pure a []
      rw [List.append_nil, List.nil_append] at hallows
      refine hallows.congr fun d => ?_
      simp only [Expression.evaluate, Option.bind_eq_bind]
      cases (T.vars x).join <;> rfl
    | _ => exact absurd ht (by simp [Expression.asVariable])
  | pointerOf n t _ => exact absurd he (by simp [Expression.plain])
  | arrayReference n p i _ _ => exact absurd he (by simp [Expression.plain])
  | memberReference n p x o _ => exact absurd he (by simp [Expression.plain])

end

mutual

/-- No element of a row literal has an assignment or a call. -/
def Expression.quietRows : Expression → Bool
  | .binary _ l _ r => l.quietRows && r.quietRows
  | .rowLiteral _ es => (effectTagsAll es).isEmpty && quietRowsAll es
  | .arrayLiteral _ es => quietRowsAll es
  | .functionCall _ _ as => quietRowsAll as
  | .assign _ _ v => v.quietRows
  | _ => true

def quietRowsAll : List Expression → Bool
  | [] => true
  | e :: es => e.quietRows && quietRowsAll es

end

def Act.NeverRepeats {α : Type} (p : Act α) : Prop := ∀ m, ¬p.repeats m

section
variable {α β : Type} {p : Act α} {f : α → Act β} {T : Ctx}

theorem Act.NeverRepeats.bind (hp : p.NeverRepeats) (hf : ∀ a, (f a).NeverRepeats) :
    (p >>= f).NeverRepeats := by
  rintro m (h | ⟨a, m₁, es, -, h⟩)
  · exact hp m h
  · exact hf a m₁ h

theorem neverRepeats_pure (a : α) : (pure a : Act α).NeverRepeats := fun _ => id

theorem neverRepeats_ofOption (o : Option α) : (Act.ofOption o).NeverRepeats := fun _ => id

theorem Act.NeverRepeats.map (hp : p.NeverRepeats) (g : α → β) : (g <$> p).NeverRepeats :=
  hp.bind fun _ => neverRepeats_pure _

theorem neverRepeats_field (k : Kind) (v : Val) : (Act.field k v).NeverRepeats := by
  intro m
  cases k <;> exact id

theorem neverRepeats_pass (k : Kind) (stack : Option ℕ) (v : Val) :
    (Act.pass k stack v).NeverRepeats := by
  have hwrite : ∀ i, (Act.write i v).NeverRepeats := fun _ _ => id
  cases k with
  | pointer b =>
    intro m
    cases b <;> exact id
  | struct => exact (neverRepeats_ofOption _).bind fun i => (hwrite i).bind fun _ => neverRepeats_pure _
  | _ => exact neverRepeats_pure v

theorem neverRepeats_second {r : Act Val} (hr : r.NeverRepeats) (forAnd : Bool) (a : Val) :
    (Act.second forAnd a r).NeverRepeats := by
  cases a with
  | bool b =>
    change (if b = forAnd then r else Pure.pure (Val.bool b)).NeverRepeats
    split_ifs
    · exact hr
    · exact neverRepeats_pure _
  | _ => exact neverRepeats_ofOption _

/-- An element that has no assignment and no call. -/
theorem Act.NeverRepeats.element {g : Data → Option (α × Data)} (hp : p.NeverRepeats)
    (hallows : p.Allows g []) : p.element.NeverRepeats := by
  have hnone : ∀ {m v m' es}, p.performs m v m' es → es = [] := fun hperforms =>
    List.map_eq_nil_iff.mp (List.sublist_nil.mp (hallows.once hperforms))
  rintro m (h | ⟨v, m', es, hes, h | ⟨v', m'', es', hes', h | ⟨h, -⟩⟩⟩)
  · exact hp m h
  · exact hp m' h
  · exact h (hnone hes')
  · exact h (hnone hes)

variable {es : List Expression}

theorem neverRepeats_directRow (h : ∀ e ∈ es, (e.direct T).NeverRepeats)
    (hplain : plainAll es = true) (htags : effectTagsAll es = []) : (directRow T es).NeverRepeats := by
  induction es with
  | nil => exact neverRepeats_pure _
  | cons e es ih =>
    rw [List.forall_mem_cons] at h
    obtain ⟨he, hes⟩ := Bool.and_eq_true_iff.mp hplain
    obtain ⟨hnil, hnil'⟩ := List.append_eq_nil_iff.mp htags
    have hallows := Expression.allows (T := T) he
    rw [hnil] at hallows
    exact (h.1.element hallows).bind fun v => (neverRepeats_field _ v).bind fun _ =>
      (ih h.2 hes hnil').bind fun _ => neverRepeats_pure _

theorem neverRepeats_directAll (h : ∀ e ∈ es, (e.direct T).NeverRepeats) :
    (directAll T es).NeverRepeats := by
  induction es with
  | nil => exact neverRepeats_pure _
  | cons e es ih =>
    rw [List.forall_mem_cons] at h
    exact h.1.bind fun _ => (ih h.2).bind fun _ => neverRepeats_pure _

theorem neverRepeats_directArgs (h : ∀ e ∈ es, (e.direct T).NeverRepeats) :
    (directArgs T es).NeverRepeats := by
  induction es with
  | nil => exact neverRepeats_pure _
  | cons e es ih =>
    rw [List.forall_mem_cons] at h
    exact h.1.bind fun v => (neverRepeats_pass _ _ v).bind fun _ => (ih h.2).bind fun _ =>
      neverRepeats_pure _

theorem quietRowsAll_iff : quietRowsAll es = true ↔ ∀ e ∈ es, e.quietRows = true := by
  induction es with
  | nil => simp [quietRowsAll]
  | cons e es ih => simp [quietRowsAll, ih]

/-- Without assignments and calls in row literals, none is repeated. -/
theorem Expression.not_repeats (e : Expression) (he : e.plain = true) (hquiet : e.quietRows = true) :
    (e.direct T).NeverRepeats := by
  induction e using Expression.induction with
  | primary n v => exact neverRepeats_pure _
  | binary n l op r hl hr =>
    obtain ⟨hpl, hpr⟩ := Bool.and_eq_true_iff.mp he
    obtain ⟨hql, hqr⟩ := Bool.and_eq_true_iff.mp hquiet
    have hl' := hl hpl hql
    have hr' := hr hpr hqr
    cases op with
    | conditionalAnd => exact hl'.bind fun _ => neverRepeats_second (hr'.map _) _ _
    | conditionalOr => exact hl'.bind fun _ => neverRepeats_second (hr'.map _) _ _
    | _ => exact hl'.bind fun _ => hr'.bind fun _ => neverRepeats_ofOption _
  | rowLiteral n es hes =>
    obtain ⟨htags, hquiet'⟩ := Bool.and_eq_true_iff.mp hquiet
    have hrow := neverRepeats_directRow (T := T)
      (fun e h => hes e h (plainAll_iff.mp he e h) (quietRowsAll_iff.mp hquiet' e h)) he
      (List.isEmpty_iff.mp htags)
    exact hrow.map _
  | arrayLiteral n es hes =>
    have hall := neverRepeats_directAll (T := T)
      fun e h => hes e h (plainAll_iff.mp he e h) (quietRowsAll_iff.mp hquiet e h)
    exact hall.map _
  | variableRef n x => exact (neverRepeats_ofOption _).bind fun _ _ => id
  | functionCall n p as _ has =>
    obtain ⟨-, has'⟩ := Bool.and_eq_true_iff.mp he
    have hargs := neverRepeats_directArgs (T := T)
      fun e h => has e h (plainAll_iff.mp has' e h) (quietRowsAll_iff.mp hquiet e h)
    cases p with
    | «variable» m f => exact hargs.bind fun _ _ => id
    | _ => exact neverRepeats_ofOption _
  | assign n t v _ hv =>
    have hv' := hv (Bool.and_eq_true_iff.mp he).2 hquiet
    cases t with
    | «variable» m x =>
      have hassign : ∀ i a, (Act.assign ⟨.assign, n.node⟩ i a).NeverRepeats := fun _ _ _ => id
      exact (neverRepeats_ofOption _).bind fun i => hv'.bind fun a => (hassign i a).bind fun _ =>
        neverRepeats_pure _
    | _ => exact neverRepeats_ofOption _
  | _ => exact neverRepeats_ofOption _

end

/-- The stores of assignments and the calls of a run are those that a direct evaluation reaches, and
each of the expression is among them once or not at all. -/
def PerformedOnce (T : Ctx) (e : Expression) (d : Data) (v : Val) (d' : Data) : Prop :=
  ∃ es, d'.effects = d.effects ++ es ∧ (e.direct T).performs d.mem v d'.mem es ∧
    (es.map Event.effect).Sublist (e.effectTags.map some)

/-- The code of an expression performs what a direct evaluation reaches, once, unless that comes to
an element of a row literal that performs an effect again. -/
theorem effects_once {e : Expression} (he : e.plain = true) {c c' : Ctx} {v : LLValue}
    (hc : c.graph.cur < c.graph.size) (hloads : c.LoadsBelow) (hgen : e.getValue.run c = .ok (v, c'))
    {d d' : Data} (hrun : CodeRun c c' d d') (hquiet : ¬(e.direct c.tables).repeats d.mem) :
    PerformedOnce c.tables e d (d'.eval v) d' := by
  obtain ⟨k, hk, -, hacts⟩ := e.denotes he rfl hloads hc hgen
  obtain ⟨-, hiff⟩ := hacts (stable_const _ ())
  have heval := (hiff d _ _).mp ⟨d', hk.exec hrun, rfl, rfl⟩
  have hallows := Expression.allows (T := c.tables) he
  obtain ⟨es, hes, hperforms⟩ := hallows.runs heval hquiet
  exact ⟨es, hes, hperforms, hallows.once hperforms⟩

/-- An empty function with one slot, for every variable. -/
def oneSlot : Ctx :=
  { Ctx.initial with
    vars := fun _ => some (some 0)
    slots := [.i64]
    rowTypes := [[.i64]]
    blocks := [[]] }

theorem oneSlot_loadsBelow : oneSlot.LoadsBelow := by
  simp [Ctx.LoadsBelow, oneSlot, Ctx.initial]

def zeroData : Data := ⟨fun _ => .undef, fun _ => .int 0, fun _ => 0, []⟩

/-- `x || (x = 5)` -/
def setUnless : Expression :=
  .binary {} (.variable {} (text "x")) .conditionalOr
    (.assign {} (.variable {} (text "x")) (.primary {} (some (.int 5))))

theorem effects_once_setUnless : ∃ c' v d', setUnless.getValue.run oneSlot = .ok (v, c') ∧
    CodeRun oneSlot c' zeroData d' ∧
      PerformedOnce oneSlot.tables setUnless zeroData (d'.eval v) d' :=
  ⟨_, _, _, rfl,
    ⟨8, ⟨0, 0, 0, zeroData⟩, _, ⟨rfl, rfl⟩, ⟨rfl, rfl⟩, Lang.steps_eq_some.mp rfl, rfl, rfl⟩,
    effects_once (e := setUnless) rfl (c := oneSlot) (by decide) oneSlot_loadsBelow rfl
      ⟨8, ⟨0, 0, 0, zeroData⟩, _, ⟨rfl, rfl⟩, ⟨rfl, rfl⟩, Lang.steps_eq_some.mp rfl, rfl, rfl⟩
      (setUnless.not_repeats rfl rfl _)⟩

/-- `{x = x + 1}` -/
def incrementRow : Expression :=
  .rowLiteral {} [.assign {} (.variable {} (text "x"))
    (.binary {} (.variable {} (text "x")) .plus (.primary {} (some (.int 1))))]

theorem incrementRow_not_once : ∃ c' v d', incrementRow.plain = true ∧ oneSlot.LoadsBelow ∧
    incrementRow.getValue.run oneSlot = .ok (v, c') ∧ CodeRun oneSlot c' zeroData d' ∧
      d'.mem 0 = .int 2 ∧ ¬PerformedOnce oneSlot.tables incrementRow zeroData (d'.eval v) d' := by
  refine ⟨_, _, _, rfl, oneSlot_loadsBelow, rfl,
    ⟨9, ⟨0, 0, 0, zeroData⟩, _, ⟨rfl, rfl⟩, ⟨rfl, rfl⟩, Lang.steps_eq_some.mp rfl, rfl, rfl⟩, rfl, ?_⟩
  rintro ⟨es, hes, -, hsub⟩
  obtain rfl : es = [.store ⟨.assign, 0⟩ (some 0), .store ⟨.assign, 0⟩ (some 0)] := hes.symm
  exact absurd hsub (by decide)

end Reir
