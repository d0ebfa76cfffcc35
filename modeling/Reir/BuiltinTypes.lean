import Reir.AnalysisCoverage

/-! The built-in types. `Define`, `tuple` and some forms of `let` enter the names of a program into
the table that holds the built-in types and that every literal and operator is typed from. -/
namespace Reir
open Gen

def builtinNames : List Text := defaultTypes.map Prod.fst

/-- The entries that the constructor of the context has made are still there. -/
def BuiltinsIntact (c : Ctx) : Prop := ∀ r ∈ defaultTypes, c.analyzeTypes r.1 = some (some r.2)

theorem defaultTypes_primary : ∀ r ∈ defaultTypes, r.2.isPrimary = true := by
  simp [defaultTypes, NodeType.isPrimary]

theorem BuiltinsIntact.lookup {c : Ctx} (h : BuiltinsIntact c) {x : Text} {t : NodeType}
    (hx : (x, t) ∈ defaultTypes) {o : Option NodeType} {c' : Ctx}
    (hrun : (lookupAnalyzeType x).run c = .ok (o, c')) : o = some t := by
  have hentry : c.analyzeTypes x = some (some t) := h (x, t) hx
  obtain ⟨c₁, c₂, hget, hrun⟩ := bind_eq_ok.mp hrun
  obtain ⟨rfl, rfl⟩ := get_eq_ok.mp hget
  rw [hentry] at hrun
  exact (pure_eq_ok.mp hrun).1.symm

section
variable {names : List Text} {c c' : Ctx}

theorem BuiltinsIntact.ne_none (h : BuiltinsIntact c) {r : Text × NodeType} (hr : r ∈ defaultTypes) :
    c.analyzeTypes r.1 ≠ none := by
  rw [h r hr]
  simp

/-- The built-in types stay if and only if none of their names is entered. -/
theorem Enters.intact_iff (h : Enters names c c') (hc : BuiltinsIntact c) :
    BuiltinsIntact c' ↔ ∀ x ∈ names, x ∉ builtinNames := by
  constructor
  · intro hc' x hx hbuiltin
    obtain ⟨r, hr, rfl⟩ := List.mem_map.mp hbuiltin
    have hentry := h r.1 (hc.ne_none hr)
    rw [if_pos hx] at hentry
    obtain ⟨t, ht, hprimary⟩ := hentry
    rw [hc' r hr] at ht
    obtain rfl : r.2 = t := Option.some.inj (Option.some.inj ht)
    rw [defaultTypes_primary r hr] at hprimary
    exact absurd hprimary (by simp)
  · intro hnames r hr
    have hnot : r.1 ∉ names := fun hmem => hnames r.1 hmem (List.mem_map_of_mem hr)
    have hentry := h r.1 (hc.ne_none hr)
    rw [if_neg hnot] at hentry
    rw [hentry, hc r hr]

end

def Operators.isComparison : Operators → Bool
  | .equal | .notequal | .lessthan | .lessequal | .morethan | .moreequal => true
  | _ => false

/-- An integer literal or a comparison. -/
def Expression.isBuiltinTyped : Expression → Bool
  | .primary _ (some (.int _)) => true
  | .binary _ _ op _ => op.isComparison
  | _ => false

/-- Integer literals have the built-in integer type and comparisons the built-in truth type. -/
def Expression.BuiltinTyped : Expression → Prop
  | .primary n (some (.int _)) => n.type = some (.primary .integer)
  | .binary n _ op _ => op.isComparison = true → n.type = some (.primary .bool)
  | _ => True

/-- The analysis of an operator looks the built-in truth type up for a comparison. -/
theorem operate_comparison {l r : NodeType} {op : Operators} {o : Option NodeType} {c c' : Ctx}
    (hop : op.isComparison = true) (h : (operate l r op).run c = .ok (o, c')) :
    (lookupAnalyzeType (text "bool")).run c = .ok (o, c') := by
  unfold operate at h
  cases op <;> simp only [Operators.isComparison, Bool.false_eq_true] at hop
  all_goals
    dsimp only at h
    split at h <;> try exact absurd h (by simp)
    all_goals
      split_ifs at h <;> first | exact h | exact absurd h (by simp)

theorem builtinRules : NodeRules BuiltinsIntact Expression.isBuiltinTyped Expression.BuiltinTyped where
  keeps := by
    intro e e' c c' h hc
    exact ((entersRules.expression e h).intact_iff hc).mpr (by simp)
  lookup := by
    intro x t c c' h hc
    exact ((entersRules.lookupAnalyzeType x h).intact_iff hc).mpr (by simp)
  analysed := by
    intro e e' c c' hc h
    cases e with
    | primary n v =>
      obtain ⟨t, c₁, h₁, hret⟩ := bind_eq_ok.mp h
      obtain ⟨rfl, -⟩ := pure_eq_ok.mp hret
      rcases v with _ | v
      · trivial
      · cases v with
        | int v => exact hc.lookup (by simp [defaultTypes]) h₁
        | _ => trivial
    | binary n l op r =>
      obtain ⟨l', c₁, h₁, h⟩ := bind_eq_ok.mp h
      obtain ⟨r', c₂, h₂, h⟩ := bind_eq_ok.mp h
      obtain ⟨lt, c₃, h₃, h⟩ := bind_eq_ok.mp h
      obtain ⟨rt, c₄, h₄, h⟩ := bind_eq_ok.mp h
      obtain ⟨t, c₅, h₅, hret⟩ := bind_eq_ok.mp h
      obtain ⟨rfl, -⟩ := pure_eq_ok.mp hret
      obtain ⟨-, rfl⟩ := require_eq_ok.mp h₃
      obtain ⟨-, rfl⟩ := require_eq_ok.mp h₄
      intro hop
      have hc₂ : BuiltinsIntact c₂ :=
        (((entersRules.expression l h₁).trans (entersRules.expression r h₂)).intact_iff hc).mpr (by simp)
      exact hc₂.lookup (by simp [defaultTypes]) (operate_comparison hop h₅)
    | _ =>
      have herase := Expression.analyze_erase _ h
      cases e' with
      | primary n v => exact absurd herase (by simp [Expression.erase])
      | binary n l op r => exact absurd herase (by simp [Expression.erase])
      | _ => trivial
  erased := by
    intro e herase
    cases e with
    | primary n v =>
      rcases v with _ | v
      · simp [Expression.BuiltinTyped, Expression.isBuiltinTyped]
      · have hnote : n.type = none := by
          simp only [Expression.erase, Expression.primary.injEq] at herase
          rw [← herase.1]
          rfl
        cases v <;> simp [Expression.BuiltinTyped, Expression.isBuiltinTyped, hnote]
    | binary n l op r =>
      have hnote : n.type = none := by
        simp only [Expression.erase, Expression.binary.injEq] at herase
        rw [← herase.1]
        rfl
      simp [Expression.BuiltinTyped, Expression.isBuiltinTyped, hnote]
    | _ => simp [Expression.BuiltinTyped, Expression.isBuiltinTyped]

theorem initial_intact : BuiltinsIntact Ctx.initial := by
  intro r hr
  simp only [defaultTypes, List.mem_cons, List.not_mem_nil, or_false] at hr
  rcases hr with rfl | rfl | rfl | rfl | rfl
  all_goals rfl

/-- After the analysis the built-in types are those of the constructor and every integer literal and
every comparison has its type from among them, if and only if no statement enters one of their names
and none of these expressions stands where the analysis does not go. -/
theorem builtins_intact_iff {ss ss' : List Statement} {c' : Ctx} (hss : Unanalysed ss)
    (h : (analyzeAll ss).run Ctx.initial = .ok (ss', c')) :
    (BuiltinsIntact c' ∧ ∀ e ∈ expressionsAll ss', ∀ m ∈ e.parts true, m.BuiltinTyped) ↔
      (∀ x ∈ enteredAll ss, x ∉ builtinNames) ∧
        ∀ e ∈ expressionsAll ss, e.covered true Expression.isBuiltinTyped = true := by
  rw [(analyses_all h).enters.intact_iff initial_intact]
  refine and_congr_right fun hnames => ?_
  refine builtinRules.program_iff hss ?_ h
  intro ns c₁ hns henters
  exact (henters.intact_iff initial_intact).mpr fun x hx => hnames x (hns hx)

def letComparison : List Statement :=
  [.letStmt (text "b")
    (.binary {} (.primary {} (some (.int 1))) .lessthan (.primary {} (some (.int 2)))) none]

theorem builtins_intact_iff_letComparison : Unanalysed letComparison ∧
    ∃ ss' c', (analyzeAll letComparison).run Ctx.initial = .ok (ss', c') ∧
      ((BuiltinsIntact c' ∧ ∀ e ∈ expressionsAll ss', ∀ m ∈ e.parts true, m.BuiltinTyped) ↔
        (∀ x ∈ enteredAll letComparison, x ∉ builtinNames) ∧
          ∀ e ∈ expressionsAll letComparison, e.covered true Expression.isBuiltinTyped = true) := by
  have hss : Unanalysed letComparison := by
    intro e he
    obtain rfl := List.mem_singleton.mp he
    rfl
  have hok : ((analyzeAll letComparison).run Ctx.initial).isOk = true := by decide +kernel
  obtain ⟨ss', c', h⟩ := run_of_isOk hok
  exact ⟨hss, ss', c', h, builtins_intact_iff hss h⟩

def defineInteger : Text := text "define<{int:x key}> integer print_int(1)"

/-- The table has replaced the integer type. -/
theorem defineInteger_not_intact : ∃ ss rest ss' c', parse 40 defineInteger = .ok ss rest ∧
    (analyzeAll ss).run Ctx.initial = .ok (ss', c') ∧
      ¬(BuiltinsIntact c' ∧ ∀ e ∈ expressionsAll ss', ∀ m ∈ e.parts true, m.BuiltinTyped) := by
  have hcheck : (parse 40 defineInteger).returnsWith (fun ss =>
      (analyzeAll ss).returnsWith Ctx.initial fun _ c' =>
        ((c'.analyzeTypes (text "integer")).join.map NodeType.isPrimary) == some false) = true := by
    decide +kernel
  obtain ⟨ss, rest, hparse, hcheck⟩ := StreamParser.Outcome.returnsWith_iff.mp hcheck
  obtain ⟨ss', c', hrun, hentry⟩ := Gen.returnsWith_iff.mp hcheck
  refine ⟨ss, rest, ss', c', hparse, hrun, fun hintact => ?_⟩
  have hinteger := hintact.1 (text "integer", .primary .integer) (by simp [defaultTypes])
  rw [hinteger] at hentry
  exact absurd hentry (by simp [NodeType.isPrimary])

end Reir
