import Reir.SchemaText

/-! On which texts the readers of a catalog record come to an end: the end of the stream ends no
loop that waits for a delimiter. -/
namespace Reir

theorem readUntil_cases (d : UInt8) (s : Text) :
    readUntil d s = .error .endless ∨
      ∃ t rest, s = t ++ d :: rest ∧ d ∉ t ∧ readUntil d s = .ok (t, d :: rest) := by
  induction s with
  | nil => exact .inl rfl
  | cons b s ih =>
    by_cases hb : b = d
    · refine .inr ⟨[], s, by rw [hb]; rfl, by simp, ?_⟩
      rw [readUntil, if_pos hb, hb]
    · rw [readUntil, if_neg hb]
      rcases ih with hend | ⟨t, rest, rfl, hd, hread⟩
      · exact .inl (by rw [hend]; rfl)
      · refine .inr ⟨b :: t, rest, rfl, ?_, by rw [hread]; rfl⟩
        rw [List.mem_cons, not_or]
        exact ⟨Ne.symm hb, hd⟩

theorem readPast_cases (d : UInt8) (s : Text) :
    readPast d s = .error .endless ∨
      ∃ t rest, s = t ++ d :: rest ∧ d ∉ t ∧ readPast d s = .ok (t, rest) := by
  rw [readPast]
  rcases readUntil_cases d s with hend | ⟨t, rest, hs, hd, hread⟩
  · exact .inl (by rw [hend]; rfl)
  · exact .inr ⟨t, rest, hs, hd, by rw [hread]; rfl⟩

/-- `stoll` throws. -/
def Rejected (t : Text) : Prop := ∃ e, stoll t = .error e

/-- An attribute up to the space behind the number of its type: an opening parenthesis, the name
with its space, and the parenthesis of the type. -/
def Opened (s code rest : Text) : Prop :=
  ∃ before name between,
    s = before ++ 40 :: (name ++ 32 :: (between ++ 40 :: (code ++ 32 :: rest))) ∧
      40 ∉ before ∧ 32 ∉ name ∧ 40 ∉ between ∧ 32 ∉ code

/-- Attributes with all their delimiters, up to the end of the text or to a number that is
rejected. -/
inductive Readable : Text → Prop
  | nil : Readable []
  | code {s c rest : Text} (hopen : Opened s c rest) (hc : Rejected c) : Readable s
  | param {s c p rest : Text} (hopen : Opened s c (p ++ 41 :: rest)) (hp : 41 ∉ p)
      (hreject : Rejected p) : Readable s
  | property {s c p q rest : Text} (hopen : Opened s c (p ++ 41 :: (q ++ 41 :: rest)))
      (hp : 41 ∉ p) (hq : 41 ∉ q) (hreject : Rejected q) : Readable s
  | record {s c p q rest : Text} (hopen : Opened s c (p ++ 41 :: (q ++ 41 :: rest)))
      (hp : 41 ∉ p) (hq : 41 ∉ q) (hrest : Readable rest) : Readable s

/-- The reader behind the number of the type. -/
def readNumbers (name code rest : Text) : Except ReadError (Attribute × Text) := do
  let code ← readStoll code
  let p ← readUntil 41 rest
  let param ← readStoll p.1
  let q ← readPast 41 (p.2.drop 1)
  let property ← readStoll q.1
  pure (⟨name, ⟨.ofCode (code % 2^64).toNat, (param % 2^64).toNat⟩, (property % 2^32).toNat⟩, q.2)

theorem Opened.deserialize {s code rest : Text} (h : Opened s code rest) :
    ∃ name, Attribute.deserialize s = readNumbers name code rest := by
  obtain ⟨before, name, between, rfl, hbefore, hname, hbetween, hcode⟩ := h
  refine ⟨name, ?_⟩
  have hcodeRead := readUntil_append hcode rest
  rw [Attribute.deserialize, readPast_append hbefore]
  simp only [bind, Except.bind, readPast_append hname, AttrType.deserialize,
    readPast_append hbetween, hcodeRead, List.drop_succ_cons, List.drop_zero, readNumbers]
  cases readStoll code with
  | error e => rfl
  | ok c =>
    cases readUntil 41 rest with
    | error e => rfl
    | ok p =>
      dsimp only
      cases readStoll p.1 with
      | error e => rfl
      | ok n => rfl

theorem Opened.length_lt {s code rest : Text} (h : Opened s code rest) : rest.length < s.length := by
  obtain ⟨before, name, between, rfl, -⟩ := h
  simp only [List.length_append, List.length_cons]
  omega

/-- An attribute is opened, or its reader does not end. -/
theorem opened_cases (s : Text) :
    Attribute.deserialize s = .error .endless ∨ ∃ code rest, Opened s code rest := by
  rcases readPast_cases 40 s with hend | ⟨before, s₁, rfl, hbefore, hread₁⟩
  · exact .inl (by rw [Attribute.deserialize, hend]; rfl)
  rcases readPast_cases 32 s₁ with hend | ⟨name, s₂, rfl, hname, hread₂⟩
  · exact .inl (by simp only [Attribute.deserialize, hread₁, hend, bind, Except.bind])
  rcases readPast_cases 40 s₂ with hend | ⟨between, s₃, rfl, hbetween, hread₃⟩
  · refine .inl ?_
    simp only [Attribute.deserialize, hread₁, hread₂, AttrType.deserialize, hend, bind, Except.bind]
  rcases readUntil_cases 32 s₃ with hend | ⟨code, rest, rfl, hcode, -⟩
  · refine .inl ?_
    simp only [Attribute.deserialize, hread₁, hread₂, AttrType.deserialize, hread₃, hend, bind,
      Except.bind]
  · exact .inr ⟨code, rest, before, name, between, rfl, hbefore, hname, hbetween, hcode⟩

theorem readStoll_cases (t : Text) :
    (∃ n, readStoll t = .ok n) ∨ Rejected t ∧ ∃ e, readStoll t = .error (.stoll e) := by
  rw [readStoll]
  cases h : stoll t with
  | ok n => exact .inl ⟨n, rfl⟩
  | error e => exact .inr ⟨⟨e, h⟩, e, rfl⟩

theorem Rejected.readStoll {t : Text} (h : Rejected t) : ∃ e, readStoll t = .error (.stoll e) := by
  obtain ⟨e, he⟩ := h
  exact ⟨e, by rw [Reir.readStoll, he]⟩

/-- An endless loop, a rejected number on a readable text, or an attribute. -/
theorem deserialize_cases (s : Text) :
    Attribute.deserialize s = .error .endless ∨
      (∃ e, Attribute.deserialize s = .error (.stoll e) ∧ Readable s) ∨
      ∃ a rest, Attribute.deserialize s = .ok (a, rest) ∧ rest.length < s.length ∧
        (Readable rest → Readable s) := by
  rcases opened_cases s with hend | ⟨code, s₁, hopen⟩
  · exact .inl hend
  obtain ⟨name, hread⟩ := hopen.deserialize
  rw [hread, readNumbers]
  rcases readStoll_cases code with ⟨c, hc⟩ | ⟨hreject, e, hc⟩
  swap
  · exact .inr (.inl ⟨e, by rw [hc]; rfl, .code hopen hreject⟩)
  rcases readUntil_cases 41 s₁ with hend | ⟨p, s₂, rfl, hp, hread₁⟩
  · exact .inl (by simp only [hc, hend, bind, Except.bind])
  rcases readStoll_cases p with ⟨param, hparam⟩ | ⟨hreject, e, hparam⟩
  swap
  · refine .inr (.inl ⟨e, ?_, .param hopen hp hreject⟩)
    simp only [hc, hread₁, hparam, bind, Except.bind]
  rcases readPast_cases 41 s₂ with hend | ⟨q, rest, rfl, hq, hread₂⟩
  · refine .inl ?_
    simp only [hc, hread₁, hparam, List.drop_succ_cons, List.drop_zero, hend, bind, Except.bind]
  rcases readStoll_cases q with ⟨property, hproperty⟩ | ⟨hreject, e, hproperty⟩
  swap
  · refine .inr (.inl ⟨e, ?_, .property hopen hp hq hreject⟩)
    simp only [hc, hread₁, hparam, List.drop_succ_cons, List.drop_zero, hread₂, hproperty, bind,
      Except.bind]
  have hlt := hopen.length_lt
  simp only [List.length_append, List.length_cons] at hlt
  refine .inr (.inr ⟨⟨name, ⟨.ofCode (c % 2^64).toNat, (param % 2^64).toNat⟩,
    (property % 2^32).toNat⟩, rest, ?_, by omega, .record hopen hp hq⟩)
  simp only [hc, hread₁, hparam, List.drop_succ_cons, List.drop_zero, hread₂, hproperty, bind,
    Except.bind]
  rfl

/-- A readable text is read up to a rejected number or up to a readable rest. -/
theorem Readable.deserialize {s : Text} (h : Readable s) (hs : s ≠ []) :
    (∃ e, Attribute.deserialize s = .error (.stoll e)) ∨
      ∃ a rest, Attribute.deserialize s = .ok (a, rest) ∧ Readable rest := by
  cases h with
  | nil => exact absurd rfl hs
  | code hopen hreject =>
    obtain ⟨name, hread⟩ := hopen.deserialize
    obtain ⟨e, hc⟩ := hreject.readStoll
    exact .inl ⟨e, by rw [hread, readNumbers, hc]; rfl⟩
  | @param _ c p rest hopen hp hreject =>
    obtain ⟨name, hread⟩ := hopen.deserialize
    obtain ⟨e, hparam⟩ := hreject.readStoll
    rw [hread, readNumbers, readUntil_append hp]
    rcases readStoll_cases c with ⟨n, hc⟩ | ⟨-, e, hc⟩
    · exact .inl ⟨e, by simp only [hc, hparam, bind, Except.bind]⟩
    · exact .inl ⟨e, by rw [hc]; rfl⟩
  | @property _ c p q rest hopen hp hq hreject =>
    obtain ⟨name, hread⟩ := hopen.deserialize
    obtain ⟨e, hproperty⟩ := hreject.readStoll
    rw [hread, readNumbers, readUntil_append hp]
    rcases readStoll_cases c with ⟨n, hc⟩ | ⟨-, e, hc⟩
    · rcases readStoll_cases p with ⟨n, hparam⟩ | ⟨-, e, hparam⟩
      · refine .inl ⟨e, ?_⟩
        simp only [hc, hparam, List.drop_succ_cons, List.drop_zero, readPast_append hq, hproperty,
          bind, Except.bind]
      · exact .inl ⟨e, by simp only [hc, hparam, bind, Except.bind]⟩
    · exact .inl ⟨e, by rw [hc]; rfl⟩
  | @record _ c p q rest hopen hp hq hrest =>
    obtain ⟨name, hread⟩ := hopen.deserialize
    rw [hread, readNumbers, readUntil_append hp]
    rcases readStoll_cases c with ⟨n, hc⟩ | ⟨-, e, hc⟩
    · rcases readStoll_cases p with ⟨n, hparam⟩ | ⟨-, e, hparam⟩
      · simp only [hc, hparam, List.drop_succ_cons, List.drop_zero, readPast_append hq, bind,
          Except.bind]
        rcases readStoll_cases q with ⟨n, hproperty⟩ | ⟨-, e, hproperty⟩
        · exact .inr ⟨_, rest, by rw [hproperty]; rfl, hrest⟩
        · exact .inl ⟨e, by rw [hproperty]⟩
      · exact .inl ⟨e, by simp only [hc, hparam, bind, Except.bind]⟩
    · exact .inl ⟨e, by rw [hc]; rfl⟩

/-- Rounds enough for the text are never used up. -/
theorem deserializeAttrs_endless_iff {fuel : ℕ} {s : Text} (hfuel : s.length ≤ fuel) :
    deserializeAttrs fuel s ≠ .error .endless ↔ Readable s := by
  induction fuel generalizing s with
  | zero =>
    obtain rfl : s = [] := List.length_eq_zero_iff.mp (Nat.le_zero.mp hfuel)
    exact ⟨fun _ => .nil, fun _ => by simp [deserializeAttrs]⟩
  | succ fuel ih =>
    cases s with
    | nil => exact ⟨fun _ => .nil, fun _ => by simp [deserializeAttrs]⟩
    | cons b s =>
      rw [deserializeAttrs]
      rcases deserialize_cases (b :: s) with hread | ⟨e, hread, hs⟩ | ⟨a, rest, hread, hlt, hs⟩
      · rw [hread]
        constructor
        · intro h
          exact absurd rfl h
        · intro h
          rcases h.deserialize (by simp) with ⟨e, hother⟩ | ⟨a, rest, hother, -⟩ <;>
            simp [hread] at hother
      · rw [hread]
        exact ⟨fun _ => hs, fun _ => by simp [bind, Except.bind]⟩
      · have hrest := ih (s := rest) (by omega)
        have hloop : (do
            let a ← Attribute.deserialize (b :: s)
            let as ← deserializeAttrs fuel a.2
            pure (a.1 :: as)) = .error .endless ↔ deserializeAttrs fuel rest = .error .endless := by
          simp only [hread, bind, Except.bind]
          cases deserializeAttrs fuel rest with
          | error e => simp
          | ok as => simp [pure, Except.pure]
        rw [ne_eq, hloop, ← ne_eq, hrest]
        refine ⟨hs, fun h => ?_⟩
        rcases h.deserialize (by simp) with ⟨e, hother⟩ | ⟨a', rest', hother, hreadable⟩
        · simp [hread] at hother
        · rw [hread, Except.ok.injEq, Prod.mk.injEq] at hother
          rw [hother.2]
          exact hreadable

/-- Reading the text into any schema returns or throws. -/
def Schema.Ends (buf : Text) : Prop :=
  ∀ target : Schema, (∃ s, target.deserialize buf = .ok s) ∨
    ∃ e, target.deserialize buf = .error (.stoll e)

/-- The reader of a schema comes to an end exactly on a name with its colon and a readable list of
attributes: only in front of an attribute does it look for the end of the text. -/
theorem schemaDeserialize_ends_iff (buf : Text) :
    Schema.Ends buf ↔
      ∃ name rest, buf = name ++ Schema.colonByte :: rest ∧ Schema.colonByte ∉ name ∧
        Readable rest := by
  have hends : Schema.Ends buf ↔ ∀ target : Schema, target.deserialize buf ≠ .error .endless := by
    refine forall_congr' fun target => ?_
    cases h : target.deserialize buf with
    | ok s => simp
    | error e => cases e <;> simp
  rw [hends]
  constructor
  · intro h
    have hread := h ⟨[], []⟩
    rw [Schema.deserialize] at hread
    rcases readPast_cases Schema.colonByte buf with hend | ⟨name, rest, rfl, hname, hpast⟩
    · rw [hend] at hread
      exact absurd rfl hread
    · refine ⟨name, rest, rfl, hname, ?_⟩
      rw [← deserializeAttrs_endless_iff le_rfl]
      intro hend
      simp only [hpast, hend, bind, Except.bind] at hread
      exact hread rfl
  · rintro ⟨name, rest, rfl, hname, hreadable⟩ target
    rw [← deserializeAttrs_endless_iff le_rfl] at hreadable
    rw [Schema.deserialize, readPast_append hname]
    simp only [bind, Except.bind]
    cases h : deserializeAttrs rest.length rest with
    | ok as => simp [pure, Except.pure]
    | error e =>
      intro hend
      obtain rfl : e = .endless := by simpa using hend
      exact hreadable h

/-- The empty text, and the record of a table cut in front of its last parenthesis. -/
theorem cutRecord_not_ends : ¬Schema.Ends [] ∧ ¬Schema.Ends (text "t:(x (0 0) 2") := by
  have hcut : ∀ buf : Text, (⟨[], []⟩ : Schema).deserialize buf = .error .endless →
      ¬Schema.Ends buf := by
    intro buf hend h
    rcases h ⟨[], []⟩ with ⟨s, hs⟩ | ⟨e, he⟩
    · simp [hend] at hs
    · simp [hend] at he
  exact ⟨hcut [] rfl, hcut (text "t:(x (0 0) 2") (by decide)⟩

end Reir
