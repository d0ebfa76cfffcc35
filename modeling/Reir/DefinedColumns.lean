import Reir.CompileFailure

/-! The columns of a table. The lists of a tuple type are filled by the parser and by the analysis;
`Define::alloca_stack` walks through them by index and makes an attribute for a column of integers,
doubles or strings and nothing for any other. -/
namespace Reir
open Gen

/-- The entry of the table of types that the type name of a column stands for. -/
def columnTypeName (x : Text) : Text :=
  if x = text "int" then text "integer" else if x = text "date" then text "integer" else x

/-- The type that the type name of a column resolves to. -/
def Ctx.columnType (c : Ctx) (x : Text) : Option NodeType := (c.analyzeTypes (columnTypeName x)).join

def TypeId.attrKind : TypeId → Option AttrKind
  | .integer => some .integer
  | .double => some .double
  | .string => some .string
  | .date => some .date
  | _ => none

/-- The declared size, zero if none is declared. -/
def declaredSize (param : Option Int) : ℕ := (param.map Int.toNat).getD 0

/-- An attribute for each column, with its name, its properties, its size and its type. -/
structure Faithful (names : List Text) (props : List ℕ) (params : List (Option Int))
    (types : List (Option NodeType)) (attrs : List Attribute) : Prop where
  length : attrs.length = names.length
  each : ∀ (i : ℕ) (a : Attribute), attrs[i]? = some a → names[i]? = some a.name ∧ props[i]? = some a.property ∧
    (∃ p, params[i]? = some p ∧ a.type.param = declaredSize p) ∧
      ∃ t, types[i]? = some (some t) ∧ t.id.attrKind = some a.type.kind

/-- A column that `Define` keeps as it was declared: of strings, or of integers or doubles without a
size. -/
def columnFits (t : Option NodeType) (param : Option Int) : Bool :=
  match t.map NodeType.id with
  | some .string => true
  | some .integer => declaredSize param = 0
  | some .double => declaredSize param = 0
  | _ => false

theorem lookupAnalyzeType_eq_ok {x : Text} {o : Option NodeType} {c c' : Ctx}
    (h : (lookupAnalyzeType x).run c = .ok (o, c')) :
    o = (c.analyzeTypes x).join ∧ ∀ y, (c'.analyzeTypes y).join = (c.analyzeTypes y).join := by
  obtain ⟨c₁, c₂, hget, h⟩ := bind_eq_ok.mp h
  obtain ⟨rfl, rfl⟩ := get_eq_ok.mp hget
  split at h
  case h_1 t hx =>
    obtain ⟨rfl, rfl⟩ := pure_eq_ok.mp h
    exact ⟨by rw [hx]; rfl, fun _ => rfl⟩
  case h_2 hx =>
    obtain ⟨_, c₂, h₁, h₂⟩ := bind_eq_ok.mp h
    obtain rfl := modify_eq_ok.mp h₁
    obtain ⟨rfl, rfl⟩ := pure_eq_ok.mp h₂
    refine ⟨by rw [hx]; rfl, fun y => ?_⟩
    by_cases hy : y = x
    · subst hy
      simp [Ctx.setAnalyzeType, hx]
    · simp [Ctx.setAnalyzeType, hy]

theorem resolveTypeName_eq_ok {x : Text} {o : Option NodeType} {c c' : Ctx}
    (h : (resolveTypeName x).run c = .ok (o, c')) :
    o = c.columnType x ∧ ∀ y, (c'.analyzeTypes y).join = (c.analyzeTypes y).join := by
  unfold resolveTypeName at h
  unfold Ctx.columnType columnTypeName
  split_ifs at h with hint hdouble hstring hdate
  · rw [if_pos hint]
    exact lookupAnalyzeType_eq_ok h
  · have hne : x ≠ text "date" := by
      rw [hdouble]
      decide
    rw [if_neg hint, if_neg hne, hdouble]
    exact lookupAnalyzeType_eq_ok h
  · have hne : x ≠ text "date" := by
      rw [hstring]
      decide
    rw [if_neg hint, if_neg hne, hstring]
    exact lookupAnalyzeType_eq_ok h
  · rw [if_neg hint, if_pos hdate]
    exact lookupAnalyzeType_eq_ok h
  · rw [if_neg hint, if_neg hdate]
    obtain ⟨c₁, c₂, hget, h⟩ := bind_eq_ok.mp h
    obtain ⟨rfl, rfl⟩ := get_eq_ok.mp hget
    obtain ⟨hx, rfl⟩ := require_eq_ok.mp h
    exact ⟨by rw [hx]; rfl, fun _ => rfl⟩

/-- The types of the columns are the entries of the table. -/
theorem resolveTypeNames_eq_ok {xs : List Text} {ts : List (Option NodeType)} {c c' : Ctx}
    (h : (resolveTypeNames xs).run c = .ok (ts, c')) : ts = xs.map c.columnType := by
  induction xs generalizing c ts with
  | nil => exact (pure_eq_ok.mp h).1.symm
  | cons x xs ih =>
    obtain ⟨t, c₁, h₁, h⟩ := bind_eq_ok.mp h
    obtain ⟨ts', c₂, h₂, hret⟩ := bind_eq_ok.mp h
    obtain ⟨rfl, rfl⟩ := pure_eq_ok.mp hret
    obtain ⟨rfl, hsame⟩ := resolveTypeName_eq_ok h₁
    have htail : xs.map c₁.columnType = xs.map c.columnType :=
      List.map_congr_left fun y _ => hsame (columnTypeName y)
    rw [List.map_cons, ih h₂, htail]

/-- The attribute of a column, if it is kept. -/
theorem attributeOf_eq_some {x : Text} {prop : ℕ} {param : Option Int} {id : TypeId} {a : Attribute}
    (h : attributeOf x prop param id = some a) :
    a.name = x ∧ a.property = prop ∧ id.attrKind = some a.type.kind ∧
      a.type.param = if id = .string then declaredSize param else 0 := by
  unfold attributeOf at h
  split at h
  case h_4 => exact absurd h (by simp)
  all_goals
    obtain rfl := Option.some.inj h
    exact ⟨rfl, rfl, rfl, by simp [declaredSize]⟩

theorem attributeOf_eq_none {x : Text} {prop : ℕ} {param : Option Int} {id : TypeId}
    (h : attributeOf x prop param id = none) : id ≠ .integer ∧ id ≠ .double ∧ id ≠ .string := by
  cases id <;> simp_all [attributeOf]

theorem columns_length {names : List Text} {props : List ℕ} {params : List (Option Int)}
    {types : List (Option NodeType)} {attrs : List Attribute}
    (h : columns names props params types = some attrs) : attrs.length ≤ names.length := by
  induction names generalizing props params types attrs with
  | nil =>
    obtain rfl := Option.some.inj h
    exact le_rfl
  | cons x names ih =>
    match props, params, types, h with
    | prop :: props, param :: params, some t :: types, h =>
      obtain ⟨rest, hrest, rfl⟩ := Option.map_eq_some_iff.mp h
      have hlength := ih hrest
      have hone : (attributeOf x prop param t.id).toList.length ≤ 1 := by
        cases attributeOf x prop param t.id <;> simp
      rw [List.length_append, List.length_cons]
      omega

theorem faithful_cons {x : Text} {prop : ℕ} {param : Option Int} {t : NodeType} {a : Attribute}
    {names : List Text} {props : List ℕ} {params : List (Option Int)} {types : List (Option NodeType)}
    {attrs : List Attribute} :
    Faithful (x :: names) (prop :: props) (param :: params) (some t :: types) (a :: attrs) ↔
      (x = a.name ∧ prop = a.property ∧ a.type.param = declaredSize param ∧
        t.id.attrKind = some a.type.kind) ∧ Faithful names props params types attrs := by
  constructor
  · intro h
    obtain ⟨hname, hprop, ⟨p, hp, hsize⟩, t', ht, hkind⟩ := h.each 0 a rfl
    obtain rfl := Option.some.inj hp
    obtain rfl := Option.some.inj (Option.some.inj ht)
    refine ⟨⟨Option.some.inj hname, Option.some.inj hprop, hsize, hkind⟩, ?_, ?_⟩
    · exact Nat.succ.inj h.length
    · exact fun i b hb => h.each (i+1) b hb
  · rintro ⟨⟨hname, hprop, hsize, hkind⟩, h⟩
    refine ⟨congrArg Nat.succ h.length, fun i b hb => ?_⟩
    cases i with
    | zero =>
      obtain rfl := Option.some.inj hb
      exact ⟨congrArg some hname, congrArg some hprop, ⟨param, rfl, hsize⟩, t, rfl, hkind⟩
    | succ i => exact h.each i b hb

/-- The columns fit, one by one. -/
def columnsFit (types : List (Option NodeType)) (params : List (Option Int)) : Bool :=
  (types.zip params).all fun column => columnFits column.1 column.2

/-- A column that is kept fits if it has the declared size. -/
theorem columnFits_iff {x : Text} {prop : ℕ} {param : Option Int} {t : NodeType} {a : Attribute}
    (h : attributeOf x prop param t.id = some a) :
    a.type.param = declaredSize param ↔ columnFits (some t) param = true := by
  rw [(attributeOf_eq_some h).2.2.2]
  unfold columnFits
  cases hid : t.id with
  | integer => simpa [hid] using eq_comm
  | double => simpa [hid] using eq_comm
  | string => simp [hid]
  | _ => exact absurd h (by simp [attributeOf, hid])

theorem columns_faithful_iff {names : List Text} {props : List ℕ} {params : List (Option Int)}
    {types : List (Option NodeType)} {attrs : List Attribute}
    (htypes : types.length = names.length) (hparams : params.length = names.length)
    (h : columns names props params types = some attrs) :
    Faithful names props params types attrs ↔ columnsFit types params = true := by
  induction names generalizing props params types attrs with
  | nil =>
    obtain rfl := Option.some.inj h
    obtain rfl := List.length_eq_zero_iff.mp htypes
    refine iff_of_true ⟨rfl, ?_⟩ rfl
    simp
  | cons x names ih =>
    match props, params, types, h with
    | prop :: props, param :: params, some t :: types, h =>
      obtain ⟨rest, hrest, rfl⟩ := Option.map_eq_some_iff.mp h
      have htail := ih (Nat.succ.inj htypes) (Nat.succ.inj hparams) hrest
      have hfit : columnsFit (some t :: types) (param :: params) =
          (columnFits (some t) param && columnsFit types params) := rfl
      rw [hfit, Bool.and_eq_true, ← htail]
      cases hattr : attributeOf x prop param t.id with
      | none =>
        obtain ⟨hint, hdouble, hstring⟩ := attributeOf_eq_none hattr
        have hnot : columnFits (some t) param = false := by
          unfold columnFits
          cases hid : t.id <;> simp_all
        rw [hnot]
        refine iff_of_false (fun hfaithful => ?_) (by simp)
        have hlong := hfaithful.length
        have hshort := columns_length hrest
        rw [Option.toList_none, List.nil_append, List.length_cons] at hlong
        omega
      | some a =>
        obtain ⟨hname, hprop, hkind, -⟩ := attributeOf_eq_some hattr
        rw [Option.toList_some, List.singleton_append, faithful_cons, ← columnFits_iff hattr]
        exact and_congr_left fun _ => ⟨fun h => h.2.2.1, fun h => ⟨hname.symm, hprop.symm, h, hkind⟩⟩

/-- The schema of a `Define` and what is passed to `create_table` are the declared columns, if and
only if every type name resolves to the type of integers, doubles or strings and only strings have
a size. -/
theorem define_faithful_iff {id : TypeId} {names typeNames : List Text} {props : List ℕ}
    {params : List (Option Int)} {name : Text} {s s' : Statement} {c c₁ c₂ c₃ : Ctx}
    (htypeNames : typeNames.length = names.length) (hparams : params.length = names.length)
    (hanalyze : (Statement.define (some (.tuple id names typeNames props params [])) name).analyze.run c =
      .ok (s, c₁)) (halloca : s.allocaStack.run c₂ = .ok (s', c₃)) :
    ∃ attrs, c₃.schemas name = some ⟨name, attrs⟩ ∧ c₃.created = c₂.created ++ [(name, attrs)] ∧
      (Faithful names props params (typeNames.map c.columnType) attrs ↔
        columnsFit (typeNames.map c.columnType) params = true) := by
  obtain ⟨t, d₁, h₁, hanalyze⟩ := bind_eq_ok.mp hanalyze
  obtain ⟨t', d₂, h₂, hanalyze⟩ := bind_eq_ok.mp hanalyze
  obtain ⟨_, d₃, -, hret⟩ := bind_eq_ok.mp hanalyze
  obtain ⟨rfl, -⟩ := pure_eq_ok.mp hret
  obtain ⟨hsome, rfl⟩ := require_eq_ok.mp h₁
  obtain rfl := Option.some.inj hsome
  obtain ⟨types, d₄, h₄, hret⟩ := bind_eq_ok.mp h₂
  obtain ⟨rfl, -⟩ := pure_eq_ok.mp hret
  obtain rfl := resolveTypeNames_eq_ok h₄
  obtain ⟨_, d₅, htable, hret⟩ := bind_eq_ok.mp halloca
  obtain ⟨-, rfl⟩ := pure_eq_ok.mp hret
  obtain ⟨attrs, d₆, hattrs, htable⟩ := bind_eq_ok.mp htable
  obtain ⟨_, d₇, hschema, hcreate⟩ := bind_eq_ok.mp htable
  obtain rfl := modify_eq_ok.mp hschema
  obtain rfl := modify_eq_ok.mp hcreate
  rw [defineAttrs_eq] at hattrs
  obtain ⟨hcolumns, rfl⟩ := require_eq_ok.mp hattrs
  refine ⟨attrs, ?_, rfl, ?_⟩
  · simp [Ctx.setSchema]
  · refine columns_faithful_iff ?_ hparams hcolumns
    rw [List.length_map, htypeNames]

/-- Two columns that are kept as they were declared. -/
def keptColumns : Statement :=
  .define (some (.tuple .tuple [text "x", text "s"] [text "int", text "string"] [1, 0]
    [none, some 8] [])) (text "t")

theorem define_faithful_iff_keptColumns :
    ∃ s c₁ s' c₂, keptColumns.analyze.run Ctx.initial = .ok (s, c₁) ∧
      s.allocaStack.run c₁ = .ok (s', c₂) ∧
      ∃ attrs, c₂.schemas (text "t") = some ⟨text "t", attrs⟩ ∧
        c₂.created = c₁.created ++ [(text "t", attrs)] ∧
        (Faithful [text "x", text "s"] [1, 0] [none, some 8]
            ([text "int", text "string"].map Ctx.initial.columnType) attrs ↔
          columnsFit ([text "int", text "string"].map Ctx.initial.columnType) [none, some 8] = true) := by
  have hok : ((keptColumns.analyze >>= Statement.allocaStack).run Ctx.initial).isOk = true := by
    decide +kernel
  obtain ⟨s', c₂, hpasses⟩ := run_of_isOk hok
  obtain ⟨s, c₁, hanalyze, halloca⟩ := bind_eq_ok.mp hpasses
  exact ⟨s, c₁, s', c₂, hanalyze, halloca, define_faithful_iff rfl rfl hanalyze halloca⟩

/-- A column of truth values. -/
def boolColumn : Statement :=
  .define (some (.tuple .tuple [text "b", text "x"] [text "bool", text "int"] [1, 0] [none, none] []))
    (text "t")

/-- The column of truth values is left out, so the table has one column only. -/
theorem boolColumn_not_faithful :
    ∃ s c₁ s' c₂ attrs, boolColumn.analyze.run Ctx.initial = .ok (s, c₁) ∧
      s.allocaStack.run c₁ = .ok (s', c₂) ∧ c₂.schemas (text "t") = some ⟨text "t", attrs⟩ ∧
      ¬Faithful [text "b", text "x"] [1, 0] [none, none]
        ([text "bool", text "int"].map Ctx.initial.columnType) attrs := by
  have hcheck : (boolColumn.analyze >>= Statement.allocaStack).returnsWith Ctx.initial (fun _ c =>
      (c.schemas (text "t")).map (fun s => (s.name, s.attrs.length)) == some (text "t", 1)) = true := by
    decide +kernel
  obtain ⟨s', c₂, hpasses, hlength⟩ := Gen.returnsWith_iff.mp hcheck
  obtain ⟨s, c₁, hanalyze, halloca⟩ := bind_eq_ok.mp hpasses
  obtain ⟨⟨name, attrs⟩, hschema, hattrs⟩ := Option.map_eq_some_iff.mp (beq_iff_eq.mp hlength)
  obtain ⟨rfl, hattrs⟩ := Prod.mk.inj hattrs
  refine ⟨s, c₁, s', c₂, attrs, hanalyze, halloca, hschema, fun hfaithful => ?_⟩
  have htwo := hfaithful.length
  rw [hattrs] at htwo
  exact absurd htwo (by decide)

end Reir
