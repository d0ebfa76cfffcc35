import Reir.Schema

/-! The text of a schema in the catalog. The readers share one stream of characters; each of
them stops right behind the closing parenthesis that its writer has put out. -/
namespace Reir

/-- The number of a type in its enumeration. -/
def AttrKind.code : AttrKind → ℕ
  | .integer => 0
  | .double => 1
  | .string => 2
  | .date => 3
  | .unknown => 4
  | .other n => n+5

def AttrType.serialize (t : AttrType) : Text :=
  text "(" ++ decimal t.kind.code ++ text " " ++ decimal t.param ++ text ")"

def Attribute.serialize (a : Attribute) : Text :=
  text "(" ++ a.name ++ text " " ++ a.type.serialize ++ text " " ++ decimal a.property ++ text ")"

def Schema.serialize (s : Schema) : Text := s.name ++ text ":" ++ s.attrs.flatMap Attribute.serialize

/-- An exception of `stoll`, or a loop that waits for a character behind the end of the
stream. -/
inductive ReadError
  | stoll (e : StoiError)
  | endless
  deriving DecidableEq, Repr

/-- `while (*it != d) out << *it++`; the stream is left at the delimiter. -/
def readUntil (d : UInt8) : Text → Except ReadError (Text × Text)
  | [] => .error .endless
  | b :: s =>
    if b = d then .ok ([], b :: s)
    else do
      let r ← readUntil d s
      pure (b :: r.1, r.2)

/-- The same, with the step over the delimiter that follows it. -/
def readPast (d : UInt8) (s : Text) : Except ReadError (Text × Text) := do
  let r ← readUntil d s
  pure (r.1, r.2.drop 1)

def readStoll (t : Text) : Except ReadError Int :=
  match stoll t with
  | .ok n => .ok n
  | .error e => .error (.stoll e)

def AttrKind.ofCode : ℕ → AttrKind
  | 0 => .integer
  | 1 => .double
  | 2 => .string
  | 3 => .date
  | 4 => .unknown
  | n+5 => .other n

/-- `AttrType::deserialize`, with the rest of the stream. -/
def AttrType.deserialize (s : Text) : Except ReadError (AttrType × Text) := do
  let r ← readPast 40 s
  let t ← readUntil 32 r.2
  let code ← readStoll t.1
  let p ← readUntil 41 (t.2.drop 1)
  let param ← readStoll p.1
  pure (⟨.ofCode (code % 2^64).toNat, (param % 2^64).toNat⟩, p.2.drop 1)

/-- `Attribute::deserialize`, with the rest of the stream. -/
def Attribute.deserialize (s : Text) : Except ReadError (Attribute × Text) := do
  let r ← readPast 40 s
  let n ← readPast 32 r.2
  let t ← AttrType.deserialize n.2
  let p ← readPast 41 t.2
  let property ← readStoll p.1
  pure (⟨n.1, t.1, (property % 2^32).toNat⟩, p.2)

/-- The loop over the attributes, which ends at the end of the stream. Every attribute takes
characters, so that the length of the stream bounds the number of rounds. -/
def deserializeAttrs : ℕ → Text → Except ReadError (List Attribute)
  | _, [] => .ok []
  | 0, _ :: _ => .error .endless
  | fuel+1, b :: s => do
    let a ← Attribute.deserialize (b :: s)
    let as ← deserializeAttrs fuel a.2
    pure (a.1 :: as)

/-- `Schema::deserialize` into a schema with any content. -/
def Schema.deserialize (target : Schema) (buf : Text) : Except ReadError Schema := do
  let target := { target with attrs := [] }
  let n ← readPast Schema.colonByte buf
  let attrs ← deserializeAttrs n.2.length n.2
  pure { target with name := n.1, attrs := target.attrs ++ attrs }

theorem readUntil_append {d : UInt8} {t : Text} (h : d ∉ t) (rest : Text) :
    readUntil d (t ++ d :: rest) = .ok (t, d :: rest) := by
  induction t with
  | nil => simp [readUntil]
  | cons b t ih =>
    have hne : b ≠ d := fun hb => h (hb ▸ List.mem_cons_self)
    have hrest := ih fun hd => h (List.mem_cons_of_mem b hd)
    rw [List.cons_append, readUntil, if_neg hne, hrest]
    rfl

theorem readPast_append {d : UInt8} {t : Text} (h : d ∉ t) (rest : Text) :
    readPast d (t ++ d :: rest) = .ok (t, rest) := by
  rw [readPast, readUntil_append h]
  rfl

theorem not_mem_decimal {d : UInt8} (h : isDigit d = false) (n : ℕ) : d ∉ decimal n := by
  intro hd
  have hdigit := decimal_isDigit n d hd
  rw [h] at hdigit
  exact absurd hdigit (by simp)

theorem readStoll_decimal {n : ℕ} (h : n < 2^63) : readStoll (decimal n) = .ok (n : Int) := by
  rw [readStoll, stoll, stoInt_decimal h]

theorem readStoll_space_decimal {n : ℕ} (h : n < 2^63) :
    readStoll (32 :: decimal n) = .ok (n : Int) := by
  have hspace : stoll (32 :: decimal n) = stoll (decimal n) := stoInt_space 63 (by decide) _
  rw [readStoll, hspace, stoll, stoInt_decimal h]

theorem AttrKind.ofCode_code (k : AttrKind) : AttrKind.ofCode k.code = k := by
  cases k <;> rfl

/-- An attribute whose name has no space, with a type and properties as its fields hold them. -/
structure Attribute.Writable (a : Attribute) : Prop where
  name : 32 ∉ a.name
  kind : a.type.kind.code < 2^63
  property : a.property < 2^32

/-- An attribute whose size parameter `stoll` can read as well. -/
structure Attribute.Storable (a : Attribute) : Prop extends a.Writable where
  param : a.type.param < 2^63

/-- Exactly the characters that `AttrType::serialize` has written are read. -/
theorem AttrType.deserialize_serialize {t : AttrType} (hkind : t.kind.code < 2^63)
    (h : t.param < 2^63) (rest : Text) :
    AttrType.deserialize (t.serialize ++ rest) = .ok (t, rest) := by
  have hopen : t.serialize ++ rest =
      [] ++ 40 :: (decimal t.kind.code ++ 32 :: (decimal t.param ++ 41 :: rest)) := by
    simp [AttrType.serialize, text]
  have hcode := readUntil_append (not_mem_decimal (d := 32) (by decide) t.kind.code)
    (decimal t.param ++ 41 :: rest)
  have hparam := readUntil_append (not_mem_decimal (d := 41) (by decide) t.param) rest
  have hcodeMod : ((t.kind.code : Int) % 2^64).toNat = t.kind.code := by omega
  have hmod : ((t.param : Int) % 2^64).toNat = t.param := by omega
  rw [hopen, AttrType.deserialize, readPast_append (by simp)]
  simp only [bind, Except.bind, hcode, readStoll_decimal hkind, List.drop_succ_cons,
    List.drop_zero, hparam, readStoll_decimal h, hcodeMod, AttrKind.ofCode_code, hmod]
  rfl

theorem Attribute.deserialize_serialize {a : Attribute} (h : a.Storable) (rest : Text) :
    Attribute.deserialize (a.serialize ++ rest) = .ok (a, rest) := by
  have hopen : a.serialize ++ rest = [] ++ 40 :: (a.name ++ 32 :: (a.type.serialize ++
      ((32 :: decimal a.property) ++ 41 :: rest))) := by
    simp [Attribute.serialize, text]
  have hname := readPast_append h.name (a.type.serialize ++ ((32 :: decimal a.property) ++ 41 :: rest))
  have htype := AttrType.deserialize_serialize h.kind h.param ((32 :: decimal a.property) ++ 41 :: rest)
  have hclose : (41 : UInt8) ∉ 32 :: decimal a.property := by
    rw [List.mem_cons, not_or]
    exact ⟨by decide, not_mem_decimal (by decide) a.property⟩
  have hproperty := h.property
  have hmod : ((a.property : Int) % 2^32).toNat = a.property := by omega
  rw [hopen, Attribute.deserialize, readPast_append (by simp)]
  simp only [bind, Except.bind, hname, htype, readPast_append hclose,
    readStoll_space_decimal (show a.property < 2^63 by omega), hmod]
  rfl

theorem Attribute.serialize_length_pos (a : Attribute) : 0 < a.serialize.length := by
  simp [Attribute.serialize, text]

theorem deserializeAttrs_serialize {as : List Attribute} (h : ∀ a ∈ as, a.Storable) {fuel : ℕ}
    (hfuel : (as.flatMap Attribute.serialize).length ≤ fuel) :
    deserializeAttrs fuel (as.flatMap Attribute.serialize) = .ok as := by
  induction as generalizing fuel with
  | nil => cases fuel <;> rfl
  | cons a as ih =>
    rw [List.forall_mem_cons] at h
    have hpos := a.serialize_length_pos
    rw [List.flatMap_cons, List.length_append] at hfuel
    obtain ⟨fuel, rfl⟩ : ∃ n, fuel = n+1 := ⟨fuel-1, by omega⟩
    have hlen : (as.flatMap Attribute.serialize).length ≤ fuel := by omega
    have hrest := ih h.2 hlen
    have hread := Attribute.deserialize_serialize h.1 (as.flatMap Attribute.serialize)
    rw [List.flatMap_cons]
    cases hs : a.serialize ++ as.flatMap Attribute.serialize with
    | nil =>
      have hlen := congrArg List.length hs
      rw [List.length_append, List.length_nil] at hlen
      omega
    | cons b s =>
      rw [hs] at hread
      simp only [deserializeAttrs, hread, bind, Except.bind, hrest]
      rfl

theorem Schema.deserialize_serialize {s : Schema} (hname : Schema.colonByte ∉ s.name)
    (hattrs : ∀ a ∈ s.attrs, a.Storable) (target : Schema) :
    target.deserialize s.serialize = .ok s := by
  have hopen : s.serialize = s.name ++ Schema.colonByte :: s.attrs.flatMap Attribute.serialize := by
    simp [Schema.serialize, text, Schema.colonByte]
  have hread := deserializeAttrs_serialize hattrs le_rfl
  rw [hopen, Schema.deserialize, readPast_append hname]
  simp only [bind, Except.bind, hread]
  rfl

/-- Reading back what was written gives the schema, whatever the target held before, and every
reader takes exactly the characters of its writer. -/
theorem schemaText_roundtrip {s : Schema} (hname : Schema.colonByte ∉ s.name)
    (hattrs : ∀ a ∈ s.attrs, a.Storable) :
    (∀ target : Schema, target.deserialize s.serialize = .ok s) ∧
      ∀ a ∈ s.attrs, ∀ rest,
        Attribute.deserialize (a.serialize ++ rest) = .ok (a, rest) ∧
          AttrType.deserialize (a.type.serialize ++ rest) = .ok (a.type, rest) := by
  refine ⟨Schema.deserialize_serialize hname hattrs, ?_⟩
  intro a ha rest
  have hstorable := hattrs a ha
  exact ⟨Attribute.deserialize_serialize hstorable rest,
    AttrType.deserialize_serialize hstorable.kind hstorable.param rest⟩

/-- The schema of the test `schema, serdes` with one more column. -/
def sampleSchema : Schema :=
  ⟨text "foo", [⟨text "hoge", ⟨.integer, 0⟩, propKey⟩, ⟨text "(a)", ⟨.string, 16⟩, propNullable⟩]⟩

theorem schemaText_roundtrip_sample :
    (∀ target : Schema, target.deserialize sampleSchema.serialize = .ok sampleSchema) ∧
      ∀ a ∈ sampleSchema.attrs, ∀ rest,
        Attribute.deserialize (a.serialize ++ rest) = .ok (a, rest) ∧
          AttrType.deserialize (a.type.serialize ++ rest) = .ok (a.type, rest) := by
  have hname : Schema.colonByte ∉ sampleSchema.name := by decide
  have hattrs : ∀ a ∈ sampleSchema.attrs, a.Storable := by
    intro a ha
    simp only [sampleSchema, List.mem_cons, List.not_mem_nil, or_false] at ha
    rcases ha with rfl | rfl
    · exact ⟨⟨by decide, by decide, by decide⟩, by decide⟩
    · exact ⟨⟨by decide, by decide, by decide⟩, by decide⟩
  exact schemaText_roundtrip hname hattrs

end Reir
