import Mathlib

/-! Recursive descent over a list of tokens, with a fuel counter for the recursion.
A run returns, throws, steps past the end of the stream, or uses up its fuel. The
last two are outcomes of their own, so that termination and bounds are theorems. -/
namespace Reir.StreamParser

inductive Outcome (τ ε α : Type)
  | ok (value : α) (rest : List τ)
  | fail (error : ε)
  | overrun
  | timeout

structure Parser (τ ε α : Type) where
  run : List τ → Outcome τ ε α

variable {τ ε α β : Type}

/-- Continue a run that returned. -/
def Outcome.andThen (o : Outcome τ ε α) (f : α → List τ → Outcome τ ε β) : Outcome τ ε β :=
  match o with
  | .ok a rest => f a rest
  | .fail e => .fail e
  | .overrun => .overrun
  | .timeout => .timeout

namespace Parser

def pure (a : α) : Parser τ ε α := ⟨fun ts => .ok a ts⟩

def bind (p : Parser τ ε α) (f : α → Parser τ ε β) : Parser τ ε β :=
  ⟨fun ts => (p.run ts).andThen fun a rest => (f a).run rest⟩

def throw (e : ε) : Parser τ ε α := ⟨fun _ => .fail e⟩

def timeout : Parser τ ε α := ⟨fun _ => .timeout⟩

end Parser

instance : Monad (Parser τ ε) where
  pure := Parser.pure
  bind := Parser.bind

/-- The current token; the end of the stream is the caller's error `e`. -/
def get (e : ε) : Parser τ ε τ := ⟨fun
  | [] => .fail e
  | t :: ts => .ok t (t :: ts)⟩

/-- Advance by one token. The cursor is not checked: past the end it overruns. -/
def next : Parser τ ε Unit := ⟨fun
  | [] => .overrun
  | _ :: ts => .ok () ts⟩

def hasNext : Parser τ ε Bool := ⟨fun ts => .ok (!ts.isEmpty) ts⟩

section Evaluation
variable {p : Parser τ ε α} {f : α → Parser τ ε β} {ts rest : List τ} {t : τ} {e : ε} {a : α}

@[simp] theorem run_pure : (Pure.pure a : Parser τ ε α).run ts = .ok a ts := rfl

@[simp] theorem run_throw : (Parser.throw e : Parser τ ε α).run ts = .fail e := rfl

@[simp] theorem run_timeout : (Parser.timeout : Parser τ ε α).run ts = .timeout := rfl

theorem run_bind : (p >>= f).run ts = (p.run ts).andThen fun a rest => (f a).run rest := rfl

theorem bind_ok (h : p.run ts = .ok a rest) : (p >>= f).run ts = (f a).run rest := by
  simp [run_bind, h, Outcome.andThen]

theorem map_ok {g : α → β} (h : p.run ts = .ok a rest) : (g <$> p).run ts = .ok (g a) rest := by
  change (p >>= fun a => Pure.pure (g a)).run ts = _
  rw [bind_ok h]
  rfl

theorem bind_fail (h : p.run ts = .fail e) : (p >>= f).run ts = .fail e := by
  simp [run_bind, h, Outcome.andThen]

@[simp] theorem pure_bind (f : α → Parser τ ε β) :
    ((Pure.pure a : Parser τ ε α) >>= f).run ts = (f a).run ts := rfl

@[simp] theorem throw_bind (f : α → Parser τ ε β) :
    ((Parser.throw e : Parser τ ε α) >>= f).run ts = .fail e := rfl

@[simp] theorem get_nil_bind (f : τ → Parser τ ε β) : (get e >>= f).run [] = .fail e := rfl

@[simp] theorem get_cons_bind (f : τ → Parser τ ε β) :
    (get e >>= f).run (t :: ts) = (f t).run (t :: ts) := rfl

@[simp] theorem next_cons_bind (f : Unit → Parser τ ε β) :
    (next >>= f).run (t :: ts) = (f ()).run ts := rfl

@[simp] theorem next_cons : (next : Parser τ ε Unit).run (t :: ts) = .ok () ts := rfl

@[simp] theorem hasNext_bind (f : Bool → Parser τ ε β) :
    (hasNext >>= f).run ts = (f (!ts.isEmpty)).run ts := rfl

theorem bind_eq_ok {b : β} : (p >>= f).run ts = .ok b rest ↔
    ∃ a r, p.run ts = .ok a r ∧ (f a).run r = .ok b rest := by
  rw [run_bind]
  cases p.run ts <;> simp [Outcome.andThen]

end Evaluation

/-- A property of what a parser returns. -/
def Parser.Gives (p : Parser τ ε α) (Q : α → Prop) : Prop :=
  ∀ ⦃ts a rest⦄, p.run ts = .ok a rest → Q a

section Gives
variable {p : Parser τ ε α} {f : α → Parser τ ε β} {Q R : α → Prop} {S : β → Prop} {e : ε}

theorem Parser.Gives.bind (hp : p.Gives Q) (hf : ∀ a, Q a → (f a).Gives S) : (p >>= f).Gives S := by
  intro ts b rest h
  obtain ⟨a, r, h₁, h₂⟩ := bind_eq_ok.mp h
  exact hf a (hp h₁) h₂

theorem gives_pure {a : α} (h : Q a) : (Pure.pure a : Parser τ ε α).Gives Q := by
  intro ts b rest hrun
  obtain ⟨rfl, -⟩ := Outcome.ok.inj hrun
  exact h

theorem gives_throw : (Parser.throw e : Parser τ ε α).Gives Q := by
  intro ts b rest h
  exact absurd h (by simp)

theorem gives_timeout : (Parser.timeout : Parser τ ε α).Gives Q := by
  intro ts b rest h
  exact absurd h (by simp)

theorem gives_true (p : Parser τ ε α) : p.Gives fun _ => True := fun _ _ _ _ => trivial

theorem Parser.Gives.map {g : α → β} (hp : p.Gives Q) (h : ∀ a, Q a → S (g a)) : (g <$> p).Gives S :=
  hp.bind fun a ha => gives_pure (h a ha)

end Gives

/-- The run ends without stepping past the end, and a returned value satisfies `Q`. -/
def Outcome.Ensures (Q : α → List τ → Prop) : Outcome τ ε α → Prop
  | .ok a rest => Q a rest
  | .fail _ => True
  | .overrun => False
  | .timeout => False

/-- Whether the run returns a value that passes a check. -/
def Outcome.returnsWith (q : α → Bool) : Outcome τ ε α → Bool
  | .ok a _ => q a
  | _ => false

theorem Outcome.returnsWith_iff {o : Outcome τ ε α} {q : α → Bool} :
    o.returnsWith q = true ↔ ∃ a rest, o = .ok a rest ∧ q a = true := by
  cases o with
  | ok a rest => simp [returnsWith]
  | _ => simp [returnsWith]

section Ensures
variable {p : Parser τ ε α} {f : α → Parser τ ε β} {ts : List τ} {e : ε}
  {Q R : α → List τ → Prop}

@[simp] theorem ensures_ok {a : α} : (Outcome.ok a ts : Outcome τ ε α).Ensures Q ↔ Q a ts := Iff.rfl

@[simp] theorem ensures_fail : (Outcome.fail e : Outcome τ ε α).Ensures Q ↔ True := Iff.rfl

theorem ensures_pure {a : α} : ((Pure.pure a : Parser τ ε α).run ts).Ensures Q ↔ Q a ts := Iff.rfl

theorem ensures_bind {Q : β → List τ → Prop} :
    ((p >>= f).run ts).Ensures Q ↔ (p.run ts).Ensures (fun a r => ((f a).run r).Ensures Q) := by
  rw [run_bind]
  cases p.run ts <;> rfl

theorem ensures_get {Q : τ → List τ → Prop} :
    ((get e : Parser τ ε τ).run ts).Ensures Q ↔ ∀ t r, ts = t :: r → Q t ts := by
  cases ts with
  | nil => simp [get]
  | cons t r => simp [get]

theorem ensures_next {Q : Unit → List τ → Prop} :
    ((next : Parser τ ε Unit).run ts).Ensures Q ↔ ∃ t r, ts = t :: r ∧ Q () r := by
  cases ts with
  | nil => simp [next, Outcome.Ensures]
  | cons t r => simp [next]

theorem ensures_hasNext {Q : Bool → List τ → Prop} :
    ((hasNext : Parser τ ε Bool).run ts).Ensures Q ↔ Q (!ts.isEmpty) ts := Iff.rfl

theorem Outcome.Ensures.mono {o : Outcome τ ε α} (h : o.Ensures Q)
    (hQ : ∀ a r, Q a r → R a r) : o.Ensures R := by
  cases o with
  | ok a r => exact hQ a r h
  | fail e => trivial
  | overrun => exact h
  | timeout => exact h

theorem Outcome.Ensures.of_eq_ok {o : Outcome τ ε α} {a : α} {rest : List τ}
    (h : o.Ensures Q) (ho : o = .ok a rest) : Q a rest := by
  subst ho
  exact h

end Ensures

/-- `p` says no more than `q`: it agrees with `q` wherever it has not run out of fuel. -/
def Refines (p q : Parser τ ε α) : Prop := ∀ ts, p.run ts = .timeout ∨ p.run ts = q.run ts

section Refines
variable {p q r : Parser τ ε α} {f g : α → Parser τ ε β}

theorem Refines.refl (p : Parser τ ε α) : Refines p p := fun _ => .inr rfl

theorem Refines.trans (h : Refines p q) (k : Refines q r) : Refines p r := by
  intro ts
  rcases h ts with h | h
  · exact .inl h
  · rw [h]; exact k ts

theorem Refines.timeout : Refines Parser.timeout p := fun _ => .inl rfl

theorem Refines.bind (h : Refines p q) (k : ∀ a, Refines (f a) (g a)) :
    Refines (p >>= f) (q >>= g) := by
  intro ts
  simp only [run_bind]
  rcases h ts with h | h
  · simp [h, Outcome.andThen]
  · rw [← h]
    cases p.run ts with
    | ok a rest => exact k a rest
    | fail e => exact .inr rfl
    | overrun => exact .inr rfl
    | timeout => exact .inl rfl

theorem Refines.map (h : Refines p q) (g : α → β) : Refines (g <$> p) (g <$> q) :=
  Refines.bind h fun _ => Refines.refl _

theorem Refines.ite {c : Prop} [Decidable c] {p' q' : Parser τ ε α} (h : Refines p q)
    (h' : Refines p' q') : Refines (if c then p else p') (if c then q else q') := by
  split_ifs
  · exact h
  · exact h'

theorem Refines.eq_ok (h : Refines p q) {ts rest : List τ} {a : α}
    (hp : p.run ts = .ok a rest) : q.run ts = .ok a rest := by
  rcases h ts with h | h
  · simp [hp] at h
  · rw [← h, hp]

theorem Refines.eq_fail (h : Refines p q) {ts : List τ} {e : ε}
    (hp : p.run ts = .fail e) : q.run ts = .fail e := by
  rcases h ts with h | h
  · simp [hp] at h
  · rw [← h, hp]

/-- A family that refines itself from each fuel to the next refines itself to any larger fuel. -/
theorem refines_of_le {F : ℕ → Parser τ ε α} (h : ∀ n, Refines (F n) (F (n+1))) {m n : ℕ}
    (hmn : m ≤ n) : Refines (F m) (F n) := by
  induction hmn with
  | refl => exact Refines.refl _
  | step _ ih => exact ih.trans (h _)

end Refines

/-- With some fuel the family returns `a` and leaves `rest`. -/
def Yields (F : ℕ → Parser τ ε α) (ts : List τ) (a : α) (rest : List τ) : Prop :=
  ∃ n, (F n).run ts = .ok a rest

theorem Yields.unique {F : ℕ → Parser τ ε α} (h : ∀ n, Refines (F n) (F (n+1)))
    {ts r s : List τ} {a b : α} (ha : Yields F ts a r) (hb : Yields F ts b s) : a = b ∧ r = s := by
  obtain ⟨m, hm⟩ := ha
  obtain ⟨n, hn⟩ := hb
  have h1 := (refines_of_le h (le_max_left m n)).eq_ok hm
  have h2 := (refines_of_le h (le_max_right m n)).eq_ok hn
  rw [h1] at h2
  simpa using h2

/-- From some fuel on, every run of the family on `ts` ends in `o`. -/
def Settles (F : ℕ → Parser τ ε α) (ts : List τ) (o : Outcome τ ε α) : Prop :=
  ∃ n, ∀ m, n ≤ m → (F m).run ts = o

section Settles
variable {F : ℕ → Parser τ ε α} {ts rest : List τ} {a : α} {e : ε} {o : Outcome τ ε α}

/-- The fuel that the outermost call uses up itself. -/
theorem Settles.of_succ {n : ℕ} (h : ∀ m, n ≤ m → (F (m+1)).run ts = o) : Settles F ts o := by
  refine ⟨n+1, ?_⟩
  intro m hm
  obtain ⟨k, rfl⟩ : ∃ k, m = k+1 := ⟨m-1, by omega⟩
  exact h k (by omega)

theorem Settles.yields (h : Settles F ts (.ok a rest)) : Yields F ts a rest := by
  obtain ⟨n, hn⟩ := h
  exact ⟨n, hn n le_rfl⟩

theorem Yields.settles (hF : ∀ n, Refines (F n) (F (n+1))) (h : Yields F ts a rest) :
    Settles F ts (.ok a rest) := by
  obtain ⟨n, hn⟩ := h
  refine ⟨n, ?_⟩
  intro m hm
  exact (refines_of_le hF hm).eq_ok hn

end Settles

end Reir.StreamParser
