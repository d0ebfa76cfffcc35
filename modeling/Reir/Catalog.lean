import Reir.SchemaText

/-! The catalog of tables, kept twice: in a map in memory, and as text in a store that is
given by its put and get. -/
namespace Reir

structure MetaData where
  tables : Text → Option Schema
  db : Text → Option Text

inductive CatalogError
  | notFound (name : Text)
  | read (e : ReadError)
  deriving DecidableEq, Repr

namespace MetaData

def empty : MetaData := ⟨fun _ => none, fun _ => none⟩

def tableKey (name : Text) : Text := text "table:global_schema:" ++ name

/-- `insert` on the map keeps an entry that is there; `Put` replaces it. -/
def createTable (m : MetaData) (name : Text) (attrs : List Attribute) : MetaData :=
  let key := tableKey name
  let s : Schema := ⟨name, attrs⟩
  { tables := fun k => if k = key then (m.tables k).or (some s) else m.tables k
    db := fun k => if k = key then some s.serialize else m.db k }

def getSchema (m : MetaData) (name : Text) : Except CatalogError Schema :=
  match m.db (tableKey name) with
  | some value =>
    match (⟨[], []⟩ : Schema).deserialize value with
    | .ok s => .ok s
    | .error e => .error (.read e)
  | none => .error (.notFound name)

def createAll (calls : List (Text × List Attribute)) : MetaData :=
  calls.foldl (fun m c => m.createTable c.1 c.2) empty

/-- The columns of the first and of the last `create_table` for a name. -/
def firstColumns (calls : List (Text × List Attribute)) (name : Text) : Option (List Attribute) :=
  (calls.find? fun c => c.1 == name).map Prod.snd

def lastColumns (calls : List (Text × List Attribute)) (name : Text) : Option (List Attribute) :=
  (calls.reverse.find? fun c => c.1 == name).map Prod.snd

theorem tableKey_inj {m n : Text} : tableKey m = tableKey n ↔ m = n := by
  simp [tableKey]

theorem createAll_snoc (calls : List (Text × List Attribute)) (c : Text × List Attribute) :
    createAll (calls ++ [c]) = (createAll calls).createTable c.1 c.2 := by
  simp [createAll]

/-- The map in memory holds the first schema of every name. -/
theorem createAll_tables (calls : List (Text × List Attribute)) (name : Text) :
    (createAll calls).tables (tableKey name) = (firstColumns calls name).map (Schema.mk name) := by
  induction calls using List.reverseRecOn with
  | nil => rfl
  | append_singleton calls c ih =>
    rw [createAll_snoc]
    simp only [createTable, tableKey_inj, ih, firstColumns, List.find?_append, Option.map_map]
    by_cases hname : name = c.1
    · subst hname
      cases hfind : calls.find? fun d => d.1 == c.1 <;> simp
    · have hne : (c.1 == name) = false := by simpa using fun h => hname h.symm
      simp [hname, hne]

/-- The store holds the text of the last one. -/
theorem createAll_db (calls : List (Text × List Attribute)) (name : Text) :
    (createAll calls).db (tableKey name) =
      (lastColumns calls name).map fun attrs => (Schema.mk name attrs).serialize := by
  induction calls using List.reverseRecOn with
  | nil => rfl
  | append_singleton calls c ih =>
    rw [createAll_snoc]
    simp only [createTable, tableKey_inj, ih, lastColumns, List.reverse_append,
      List.reverse_singleton, List.singleton_append, List.find?_cons]
    by_cases hname : name = c.1
    · subst hname
      simp
    · have hne : (c.1 == name) = false := by simpa using fun h => hname h.symm
      simp [hname, hne]

end MetaData

theorem readStoll_decimal_large {n : ℕ} (h : ¬n < 2^63) :
    readStoll (decimal n) = .error (.stoll .outOfRange) := by
  have hdigits := stoInt_digits 63 (decimal_ne_nil n) (decimal_isDigit n)
  rw [digitsValue_decimal, if_neg h] at hdigits
  rw [readStoll, stoll, hdigits]

theorem AttrType.deserialize_large {t : AttrType} (hkind : t.kind.code < 2^63)
    (h : ¬t.param < 2^63) (rest : Text) :
    AttrType.deserialize (t.serialize ++ rest) = .error (.stoll .outOfRange) := by
  have hopen : t.serialize ++ rest =
      [] ++ 40 :: (decimal t.kind.code ++ 32 :: (decimal t.param ++ 41 :: rest)) := by
    simp [AttrType.serialize, text]
  have hcode := readUntil_append (not_mem_decimal (d := 32) (by decide) t.kind.code)
    (decimal t.param ++ 41 :: rest)
  have hparam := readUntil_append (not_mem_decimal (d := 41) (by decide) t.param) rest
  rw [hopen, AttrType.deserialize, readPast_append (by simp)]
  simp only [bind, Except.bind, hcode, readStoll_decimal hkind, List.drop_succ_cons,
    List.drop_zero, hparam, readStoll_decimal_large h]

theorem Attribute.deserialize_large {a : Attribute} (h : a.Writable) (hp : ¬a.type.param < 2^63)
    (rest : Text) : Attribute.deserialize (a.serialize ++ rest) = .error (.stoll .outOfRange) := by
  have hopen : a.serialize ++ rest = [] ++ 40 :: (a.name ++ 32 :: (a.type.serialize ++
      ((32 :: decimal a.property) ++ 41 :: rest))) := by
    simp [Attribute.serialize, text]
  have hname := readPast_append h.name (a.type.serialize ++ ((32 :: decimal a.property) ++ 41 :: rest))
  have htype := AttrType.deserialize_large h.kind hp ((32 :: decimal a.property) ++ 41 :: rest)
  rw [hopen, Attribute.deserialize, readPast_append (by simp)]
  simp only [bind, Except.bind, hname, htype]

theorem deserializeAttrs_large {as : List Attribute} (h : ∀ a ∈ as, a.Writable)
    (hp : ¬∀ a ∈ as, a.type.param < 2^63) {fuel : ℕ}
    (hfuel : (as.flatMap Attribute.serialize).length ≤ fuel) :
    deserializeAttrs fuel (as.flatMap Attribute.serialize) = .error (.stoll .outOfRange) := by
  induction as generalizing fuel with
  | nil => simp at hp
  | cons a as ih =>
    rw [List.forall_mem_cons] at h hp
    have hpos := a.serialize_length_pos
    rw [List.flatMap_cons, List.length_append] at hfuel
    obtain ⟨fuel, rfl⟩ : ∃ n, fuel = n+1 := ⟨fuel-1, by omega⟩
    rw [List.flatMap_cons]
    cases hs : a.serialize ++ as.flatMap Attribute.serialize with
    | nil =>
      have hlen := congrArg List.length hs
      rw [List.length_append, List.length_nil] at hlen
      omega
    | cons b s =>
      rw [deserializeAttrs, ← hs]
      by_cases hparam : a.type.param < 2^63
      · have hlen : (as.flatMap Attribute.serialize).length ≤ fuel := by omega
        have hrest := ih h.2 (fun hall => hp ⟨hparam, hall⟩) hlen
        have hread := Attribute.deserialize_serialize ⟨h.1, hparam⟩ (as.flatMap Attribute.serialize)
        simp only [hread, bind, Except.bind, hrest]
      · simp only [Attribute.deserialize_large h.1 hparam, bind, Except.bind]

theorem Schema.deserialize_serialize_iff {s : Schema} (hname : Schema.colonByte ∉ s.name)
    (hattrs : ∀ a ∈ s.attrs, a.Writable) (target : Schema) :
    target.deserialize s.serialize = .ok s ↔ ∀ a ∈ s.attrs, a.type.param < 2^63 := by
  constructor
  · intro h
    by_contra hp
    have hopen : s.serialize = s.name ++ Schema.colonByte :: s.attrs.flatMap Attribute.serialize := by
      simp [Schema.serialize, text, Schema.colonByte]
    rw [hopen, Schema.deserialize, readPast_append hname] at h
    simp only [bind, Except.bind, deserializeAttrs_large hattrs hp le_rfl] at h
    simp at h
  · intro hp
    exact Schema.deserialize_serialize hname (fun a ha => ⟨hattrs a ha, hp a ha⟩) target

/-- For every name that was created, the text in the store reads back as the schema in memory,
and both are the schema of the last `create_table`. -/
def MetaData.Agree (m : MetaData) (calls : List (Text × List Attribute)) : Prop :=
  ∀ name attrs, MetaData.lastColumns calls name = some attrs →
    m.getSchema name = .ok ⟨name, attrs⟩ ∧ m.tables (MetaData.tableKey name) = some ⟨name, attrs⟩

theorem MetaData.getSchema_createAll {calls : List (Text × List Attribute)} {name : Text}
    {attrs : List Attribute} (hlast : lastColumns calls name = some attrs)
    (hname : Schema.colonByte ∉ name) (hattrs : ∀ a ∈ attrs, a.Writable) :
    (createAll calls).getSchema name = .ok ⟨name, attrs⟩ ↔ ∀ a ∈ attrs, a.type.param < 2^63 := by
  have hread := Schema.deserialize_serialize_iff (s := ⟨name, attrs⟩) hname hattrs ⟨[], []⟩
  rw [getSchema, createAll_db, hlast, Option.map_some]
  constructor
  · intro h
    apply hread.mp
    cases hd : (⟨[], []⟩ : Schema).deserialize (Schema.mk name attrs).serialize with
    | ok s =>
      simp only [hd, Except.ok.injEq] at h
      rw [h]
    | error e => simp [hd] at h
  · intro h
    simp [hread.mpr h]

/-- After any sequence of `create_table` calls the two catalogs agree exactly when, for every
name, the first call had the same columns as the last and all its size parameters are below
`2^63`. -/
theorem catalogs_agree_iff {calls : List (Text × List Attribute)}
    (hnames : ∀ c ∈ calls, Schema.colonByte ∉ c.1)
    (hattrs : ∀ c ∈ calls, ∀ a ∈ c.2, a.Writable) :
    (MetaData.createAll calls).Agree calls ↔
      ∀ name attrs, MetaData.lastColumns calls name = some attrs →
        MetaData.firstColumns calls name = some attrs ∧ ∀ a ∈ attrs, a.type.param < 2^63 := by
  apply forall_congr'
  intro name
  apply forall_congr'
  intro attrs
  apply imp_congr_right
  intro hlast
  have hmem : (name, attrs) ∈ calls := by
    obtain ⟨c, hc, rfl⟩ := Option.map_eq_some_iff.mp hlast
    have hname := List.find?_some hc
    rw [beq_iff_eq] at hname
    rw [← hname]
    exact List.mem_reverse.mp (List.mem_of_find?_eq_some hc)
  have htables : (MetaData.createAll calls).tables (MetaData.tableKey name) = some ⟨name, attrs⟩ ↔
      MetaData.firstColumns calls name = some attrs := by
    rw [MetaData.createAll_tables]
    simp
  rw [MetaData.getSchema_createAll hlast (hnames _ hmem) (hattrs _ hmem), htables, and_comm]

/-- Two tables, the second of them created twice in the same way. -/
def twoTables : List (Text × List Attribute) :=
  [(text "a", [⟨text "x", ⟨.integer, 0⟩, propKey⟩]), (text "b", []), (text "b", [])]

theorem catalogs_agree_iff_twoTables :
    (MetaData.createAll twoTables).Agree twoTables ↔
      ∀ name attrs, MetaData.lastColumns twoTables name = some attrs →
        MetaData.firstColumns twoTables name = some attrs ∧ ∀ a ∈ attrs, a.type.param < 2^63 := by
  have hattrs : ∀ c ∈ twoTables, ∀ a ∈ c.2, a.Writable := by
    intro c hc a ha
    simp only [twoTables, List.mem_cons, List.not_mem_nil, or_false] at hc
    rcases hc with rfl | rfl | rfl
    · rw [List.mem_singleton.mp ha]
      exact ⟨by decide, by decide, by decide⟩
    · exact absurd ha (by simp)
    · exact absurd ha (by simp)
  exact catalogs_agree_iff (by decide) hattrs

/-- A table that is created a second time with another column. -/
def recreated : List (Text × List Attribute) :=
  [(text "t", [⟨text "x", ⟨.integer, 0⟩, propKey⟩]), (text "t", [⟨text "y", ⟨.integer, 0⟩, propKey⟩])]

theorem recreated_disagree : ¬(MetaData.createAll recreated).Agree recreated := by
  intro h
  have htables := (h (text "t") [⟨text "y", ⟨.integer, 0⟩, propKey⟩] (by decide)).2
  exact absurd htables (by decide)

end Reir
