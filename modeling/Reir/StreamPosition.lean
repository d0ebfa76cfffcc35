import Reir.StreamParser

/-! Positions in a stream of tokens. What is made of the operations on a stream leaves a suffix of
it, and an index into the tokens is as good as the tokens that are left. -/
namespace Reir.StreamParser

variable {τ ε α β : Type}

/-- What holds of the operations on a stream and of the steps made of them. -/
structure StreamRules (P : ∀ {α : Type}, Parser τ ε α → Prop) : Prop where
  pure : ∀ {α : Type} (a : α), P (Pure.pure a : Parser τ ε α)
  bind : ∀ {α β : Type} {p : Parser τ ε α} {f : α → Parser τ ε β}, P p → (∀ a, P (f a)) → P (p >>= f)
  throw : ∀ {α : Type} (e : ε), P (Parser.throw e : Parser τ ε α)
  timeout : ∀ {α : Type}, P (Parser.timeout : Parser τ ε α)
  get : ∀ e : ε, P (get e : Parser τ ε τ)
  next : P (next : Parser τ ε Unit)
  hasNext : P (hasNext : Parser τ ε Bool)

namespace StreamRules
variable {P : ∀ {α : Type}, Parser τ ε α → Prop} (R : StreamRules P)
include R

theorem map {p : Parser τ ε α} (h : P p) (g : α → β) : P (g <$> p) := R.bind h fun _ => R.pure _

end StreamRules

/-- What a run leaves is a part of what it was given. -/
def Parser.LeavesSuffix (p : Parser τ ε α) : Prop := ∀ ⦃ts a rest⦄, p.run ts = .ok a rest → rest <:+ ts

theorem suffixRules : StreamRules (@Parser.LeavesSuffix τ ε) where
  pure a := by
    intro ts b rest h
    obtain ⟨-, rfl⟩ := Outcome.ok.inj h
    exact List.suffix_rfl
  bind hp hf := by
    intro ts b rest h
    obtain ⟨a, r, h₁, h₂⟩ := bind_eq_ok.mp h
    exact (hf a h₂).trans (hp h₁)
  throw e := by
    intro ts a rest h
    rw [run_throw] at h
    cases h
  timeout := by
    intro α ts a rest h
    rw [run_timeout] at h
    cases h
  get e := by
    intro ts t rest h
    cases ts with
    | nil => simp [get] at h
    | cons u us =>
      obtain ⟨-, rfl⟩ := Outcome.ok.inj h
      exact List.suffix_rfl
  next := by
    intro ts u rest h
    cases ts with
    | nil => simp [next] at h
    | cons t us =>
      obtain ⟨-, rfl⟩ := Outcome.ok.inj h
      exact List.suffix_cons t us
  hasNext := by
    intro ts b rest h
    obtain ⟨-, rfl⟩ := Outcome.ok.inj h
    exact List.suffix_rfl

end Reir.StreamParser
