import Reir.InsertedRows
import Reir.IntegerCode

/-! The passes of the compiler on integer programs. Each of them returns: the analysis finds the types
of all expressions, the allocation pass gives each variable a slot of its own, apart from those of the
emitted rows, and code generation finds what the two have left behind. -/
namespace Reir
open Gen

/-- A step returns from each context of a kind, and what it returns goes with the context behind it. -/
def Gen.Completes {α : Type} (I : Ctx → Prop) (p : Gen α) (J : α → Ctx → Prop) : Prop :=
  ∀ ⦃c⦄, I c → ∃ a c', p.run c = .ok (a, c') ∧ J a c'

namespace Gen
variable {α β : Type} {I I' : Ctx → Prop} {p : Gen α} {f : α → Gen β} {J J' : α → Ctx → Prop}
  {K : β → Ctx → Prop}

theorem Completes.bind (hp : p.Completes I J) (hf : ∀ a, (f a).Completes (J a) K) :
    (p >>= f).Completes I K := by
  intro c hc
  obtain ⟨a, c₁, h₁, hJ⟩ := hp hc
  obtain ⟨b, c', h₂, hK⟩ := hf a hJ
  exact ⟨b, c', bind_eq_ok.mpr ⟨a, c₁, h₁, h₂⟩, hK⟩

theorem Completes.mono (h : p.Completes I J) (hI : ∀ c, I' c → I c) (hJ : ∀ a c, J a c → J' a c) :
    p.Completes I' J' := by
  intro c hc
  obtain ⟨a, c', hrun, ha⟩ := h (hI c hc)
  exact ⟨a, c', hrun, hJ a c' ha⟩

/-- What is known of all results holds of the one that is returned. -/
theorem Completes.yields {Q : α → Prop} (h : p.Completes I J) (hy : p.Yields Q) :
    p.Completes I fun a c => Q a ∧ J a c := by
  intro c hc
  obtain ⟨a, c', hrun, hJ⟩ := h hc
  exact ⟨a, c', hrun, hy hrun, hJ⟩

theorem completes_pure {a : α} (h : ∀ c, I c → J a c) : (Pure.pure a : Gen α).Completes I J :=
  fun c hc => ⟨a, c, rfl, h c hc⟩

theorem completes_require {e : CompileError} {o : Option α} (h : ∀ c, I c → ∃ a, o = some a) :
    (require e o).Completes I fun a c => o = some a ∧ I c := by
  intro c hc
  obtain ⟨a, rfl⟩ := h c hc
  exact ⟨a, c, rfl, rfl, hc⟩

end Gen

theorem command_forStmt {init : Ptr Statement} {cond every : Ptr Expression} {blk : List Statement}
    {p : Command} (h : (Statement.forStmt init cond every blk).command = some p) :
    ∃ s c e i t a ps, init = .to s ∧ cond = .to c ∧ every = .to e ∧ s.init = some i ∧
      c.truth = some t ∧ e.action = some a ∧ commands blk = some ps ∧ p = .forLoop i t a ps := by
  cases init with
  | «to» s =>
    cases cond with
    | «to» c =>
      cases every with
      | «to» e =>
        simp only [Statement.command, Option.bind_eq_bind, Option.bind_eq_some_iff] at h
        obtain ⟨i, hi, t, ht, a, ha, ps, hps, h⟩ := h
        exact ⟨s, c, e, i, t, a, ps, rfl, rfl, rfl, hi, ht, ha, hps, (Option.some.inj h).symm⟩
      | _ => exact absurd h (by simp [Statement.command, Statement.init])
    | _ => exact absurd h (by cases every <;> simp [Statement.command, Statement.init])
  | _ => exact absurd h (by cases cond <;> cases every <;> simp [Statement.command, Statement.init])

theorem command_emit {stack : Option ℕ} {e : Expression} {p : Command}
    (h : (Statement.emit stack e).command = some p) :
    ∃ n es ts, e = .rowLiteral n es ∧ 8*es.length < 2^64 ∧ pureNumbers es = some ts ∧ p = .emit ts := by
  cases e with
  | rowLiteral n es =>
    obtain ⟨hlength, h⟩ := Option.ite_none_right_eq_some.mp h
    obtain ⟨ts, hts, rfl⟩ := Option.map_eq_some_iff.mp h
    exact ⟨n, es, ts, rfl, hlength, hts, rfl⟩
  | _ => exact absurd h (by simp [Statement.command, Statement.init])

theorem command_ifStmt {cond : Expression} {ts : List Statement} {fs : Option (List Statement)}
    {p : Command} (h : (Statement.ifStmt cond ts fs).command = some p) :
    ∃ c ps qs, cond.condition = some c ∧ commands ts = some ps ∧ commandsElse fs = some qs ∧
      p = .ifElse c ps qs := by
  simp only [Statement.command, Option.bind_eq_bind, Option.bind_eq_some_iff] at h
  obtain ⟨c, hc, ps, hps, qs, hqs, h⟩ := h
  exact ⟨c, ps, qs, hc, hps, hqs, (Option.some.inj h).symm⟩

/-- The names of the types are known, and the given variables are integers. -/
structure Typed (xs : List Text) (c : Ctx) : Prop where
  integer : c.analyzeTypes (text "integer") = some (some (.primary .integer))
  bool : c.analyzeTypes (text "bool") = some (some (.primary .bool))
  vars : ∀ x ∈ xs, c.varTypes x = some (some (.primary .integer))

/-- An expression is analysed to one of the given type. -/
abbrev Expression.AnalysedAs (xs : List Text) (e : Expression) (id : TypeId) : Prop :=
  e.analyze.Completes (Typed xs) fun e' c => e'.note.type = some (.primary id) ∧ Typed xs c

theorem typed_initial : Typed [] Ctx.initial := ⟨rfl, rfl, by simp⟩

theorem Typed.setVarType {xs : List Text} {c : Ctx} (h : Typed xs c) (x : Text) :
    Typed (x :: xs) (c.setVarType x (some (.primary .integer))) where
  integer := h.integer
  bool := h.bool
  vars := by
    intro y hy
    by_cases hyx : y = x
    · subst hyx
      exact Function.update_self _ _ _
    · change Function.update c.varTypes x _ y = _
      rw [Function.update_of_ne hyx]
      exact h.vars y ((List.mem_cons.mp hy).resolve_left hyx)

section
variable {xs : List Text}

theorem completes_lookupAnalyzeType {x : Text} {t : NodeType}
    (h : ∀ c, Typed xs c → c.analyzeTypes x = some (some t)) :
    (lookupAnalyzeType x).Completes (Typed xs) fun o c => o = some t ∧ Typed xs c := by
  intro c hc
  refine ⟨some t, c, ?_, rfl, hc⟩
  rw [lookupAnalyzeType, bind_eq_ok]
  refine ⟨c, c, rfl, ?_⟩
  rw [h c hc]
  rfl

theorem completes_integer : (lookupAnalyzeType (text "integer")).Completes (Typed xs)
    fun o c => o = some (.primary .integer) ∧ Typed xs c :=
  completes_lookupAnalyzeType fun _ hc => hc.integer

theorem completes_bool : (lookupAnalyzeType (text "bool")).Completes (Typed xs)
    fun o c => o = some (.primary .bool) ∧ Typed xs c :=
  completes_lookupAnalyzeType fun _ hc => hc.bool

theorem completes_arith {op : Operators} {o : Arith} (h : op.arith = some o) :
    (operate (.primary .integer) (.primary .integer) op).Completes (Typed xs)
      fun t c => t = some (.primary .integer) ∧ Typed xs c := by
  have hoperate : operate (.primary .integer) (.primary .integer) op =
      Pure.pure (some (.primary .integer)) := by
    cases op with
    | plus | minus | multiple | division | modulo => rfl
    | _ => exact absurd h (by simp [Operators.arith])
  rw [hoperate]
  exact completes_pure fun _ hc => ⟨rfl, hc⟩

theorem completes_comparison {op : Operators} {o : Comparison} (h : op.comparison = some o) :
    (operate (.primary .integer) (.primary .integer) op).Completes (Typed xs)
      fun t c => t = some (.primary .bool) ∧ Typed xs c := by
  have hoperate : operate (.primary .integer) (.primary .integer) op = lookupAnalyzeType (text "bool") := by
    cases op with
    | equal | notequal | lessthan | lessequal | morethan | moreequal => rfl
    | _ => exact absurd h (by simp [Operators.comparison])
  rw [hoperate]
  exact completes_bool

/-- The operands of `&&` and `||`. -/
theorem completes_conditional {l r : TypeId} (hl : l = .integer ∨ l = .bool) (hr : r = .integer ∨ r = .bool)
    {op : Operators} (hop : op = .conditionalAnd ∨ op = .conditionalOr) :
    (operate (.primary l) (.primary r) op).Completes (Typed xs)
      fun t c => t = some (.primary .bool) ∧ Typed xs c := by
  have hoperate : operate (.primary l) (.primary r) op = lookupAnalyzeType (text "bool") := by
    rcases hl with rfl | rfl <;> rcases hr with rfl | rfl <;> rcases hop with rfl | rfl <;> rfl
  rw [hoperate]
  exact completes_bool

/-- The operands of an operator have been analysed. -/
theorem analysed_binary {l r : Expression} {lt rt t : TypeId} {op : Operators} (hl : l.AnalysedAs xs lt)
    (hr : r.AnalysedAs xs rt) (hop : (operate (.primary lt) (.primary rt) op).Completes (Typed xs)
      fun o c => o = some (.primary t) ∧ Typed xs c) (n : Note) :
    (Expression.binary n l op r).AnalysedAs xs t := by
  intro c hc
  obtain ⟨l', c₁, h₁, hlt, hc₁⟩ := hl hc
  obtain ⟨r', c₂, h₂, hrt, hc₂⟩ := hr hc₁
  obtain ⟨o, c₃, h₃, rfl, hc₃⟩ := hop hc₂
  refine ⟨.binary { n with type := some (.primary t) } l' op r', c₃, ?_, rfl, hc₃⟩
  simp only [Expression.analyze, bind_eq_ok, require_eq_ok, pure_eq_ok]
  exact ⟨l', c₁, h₁, r', c₂, h₂, _, c₂, ⟨hlt, rfl⟩, _, c₂, ⟨hrt, rfl⟩, _, c₃, h₃, rfl, rfl⟩

theorem analysed_number {e : Expression} {t : Number} (h : e.number = some t) (hvars : t.vars ⊆ xs) :
    e.AnalysedAs xs .integer := by
  have hvariable : ∀ (n : Note) (x : Text), x ∈ xs → (Expression.variable n x).AnalysedAs xs .integer := by
    intro n x hx c hc
    refine ⟨.variable { n with type := some (.primary .integer) } x, c, ?_, rfl, hc⟩
    simp only [Expression.analyze, findVarType, bind_eq_ok, get_eq_ok, require_eq_ok, pure_eq_ok]
    exact ⟨_, c, ⟨c, c, ⟨rfl, rfl⟩, hc.vars x hx, rfl⟩, rfl, rfl⟩
  induction e using Expression.induction generalizing t with
  | primary n v =>
    cases v with
    | none => exact absurd h (by simp [Expression.number])
    | some w =>
      cases w with
      | int v =>
        refine completes_integer.bind fun o => completes_pure ?_
        rintro c ⟨rfl, hc⟩
        exact ⟨rfl, hc⟩
      | _ => exact absurd h (by simp [Expression.number])
  | binary n l op r hl hr =>
    simp only [Expression.number, Option.bind_eq_bind, Option.bind_eq_some_iff] at h
    obtain ⟨o, ho, l', hl', r', hr', h⟩ := h
    obtain rfl := Option.some.inj h
    obtain ⟨hvl, hvr⟩ := List.append_subset.mp hvars
    exact analysed_binary (hl hl' hvl) (hr hr' hvr) (completes_arith ho) n
  | variableRef n x =>
    obtain rfl := Option.some.inj h
    exact hvariable n x (hvars (List.mem_singleton_self x))
  | assign n target v _ hv =>
    cases target with
    | «variable» m x =>
      simp only [Expression.number, Option.bind_eq_bind, Option.bind_eq_some_iff] at h
      obtain ⟨v', hv', h⟩ := h
      obtain rfl := Option.some.inj h
      obtain ⟨hx, hvars'⟩ := List.cons_subset.mp hvars
      refine (hvariable m x hx).bind fun t => ?_
      refine ((hv hv' hvars').mono (fun _ hc => hc.2) fun _ _ hJ => hJ).bind fun v => ?_
      exact completes_pure fun _ hc => hc
    | _ => exact absurd h (by simp [Expression.number])
  | _ => exact absurd h (by simp [Expression.number])

/-- An operand of `&&` or `||`. -/
theorem analysed_condition_of {e : Expression} {c : Condition}
    (htruth : ∀ {c}, e.truth = some c → c.vars ⊆ xs → e.AnalysedAs xs .bool) (h : e.condition = some c)
    (hvars : c.vars ⊆ xs) : ∃ t, (t = .integer ∨ t = .bool) ∧ e.AnalysedAs xs t := by
  rcases Expression.condition_eq_some h with hc | ⟨t, ht, rfl⟩
  · exact ⟨.bool, .inr rfl, htruth hc hvars⟩
  · exact ⟨.integer, .inl rfl, analysed_number ht hvars⟩

theorem analysed_truth {e : Expression} {c : Condition} (h : e.truth = some c) (hvars : c.vars ⊆ xs) :
    e.AnalysedAs xs .bool := by
  induction e using Expression.induction generalizing c with
  | binary n l op r hl hr =>
    have hconditional : ∀ (l' r' : Condition), (op = .conditionalAnd ∨ op = .conditionalOr) →
        l.condition = some l' → r.condition = some r' → l'.vars ++ r'.vars ⊆ xs →
          (Expression.binary n l op r).AnalysedAs xs .bool := by
      intro l' r' hop hl' hr' hvars'
      obtain ⟨hvl, hvr⟩ := List.append_subset.mp hvars'
      obtain ⟨lt, hlt, hl⟩ := analysed_condition_of hl hl' hvl
      obtain ⟨rt, hrt, hr⟩ := analysed_condition_of hr hr' hvr
      exact analysed_binary hl hr (completes_conditional hlt hrt hop) n
    cases op with
    | conditionalAnd =>
      simp only [Expression.truth, Option.bind_eq_bind, Option.bind_eq_some_iff] at h
      obtain ⟨l', hl', r', hr', h⟩ := h
      obtain rfl := Option.some.inj h
      exact hconditional l' r' (.inl rfl) hl' hr' hvars
    | conditionalOr =>
      simp only [Expression.truth, Option.bind_eq_bind, Option.bind_eq_some_iff] at h
      obtain ⟨l', hl', r', hr', h⟩ := h
      obtain rfl := Option.some.inj h
      exact hconditional l' r' (.inr rfl) hl' hr' hvars
    | _ =>
      simp only [Expression.truth, Option.bind_eq_bind, Option.bind_eq_some_iff] at h
      obtain ⟨o, ho, l', hl', r', hr', h⟩ := h
      obtain rfl := Option.some.inj h
      obtain ⟨hvl, hvr⟩ := List.append_subset.mp hvars
      exact analysed_binary (analysed_number hl' hvl) (analysed_number hr' hvr) (completes_comparison ho) n
  | _ => exact absurd h (by simp [Expression.truth])

theorem analysed_condition {e : Expression} {c : Condition} (h : e.condition = some c)
    (hvars : c.vars ⊆ xs) : e.analyze.Completes (Typed xs) fun _ => Typed xs := by
  obtain ⟨t, -, he⟩ := analysed_condition_of (fun hc hv => analysed_truth hc hv) h hvars
  exact he.mono (fun _ hc => hc) fun _ _ hJ => hJ.2

theorem analysed_action {e : Expression} {a : Action} (h : e.action = some a) (hvars : a.vars ⊆ xs) :
    e.analyze.Completes (Typed xs) fun _ => Typed xs := by
  rcases Expression.action_eq_some h with ⟨t, ht, rfl⟩ | ⟨t, ht, rfl⟩ | ⟨c, hc, rfl⟩
  · unfold Expression.printed at ht
    split at ht
    case h_2 => exact absurd ht (by simp)
    split_ifs at ht with hf
    refine completes_integer.bind fun o => ?_
    refine Completes.bind (J := fun _ => Typed xs) ?_ fun _ => completes_pure fun _ hc => hc
    refine ((analysed_number ht hvars).mono (fun _ hc => hc.2) fun _ _ hJ => hJ.2).bind fun e => ?_
    exact completes_pure fun _ hc => hc
  · exact (analysed_number ht hvars).mono (fun _ hc => hc) fun _ _ hJ => hJ.2
  · exact (analysed_truth hc hvars).mono (fun _ hc => hc) fun _ _ hJ => hJ.2

theorem analysed_elements {es : List Expression} {ts : List Number} (h : pureNumbers es = some ts)
    (hvars : ts.flatMap Number.vars ⊆ xs) :
    (analyzeElements es).Completes (Typed xs) fun _ => Typed xs := by
  induction es generalizing ts with
  | nil => exact completes_pure fun _ hc => hc
  | cons e es ih =>
    simp only [pureNumbers, Option.bind_eq_bind, Option.bind_eq_some_iff, Option.ite_none_right_eq_some] at h
    obtain ⟨t, ht, ts', hts', -, h⟩ := h
    obtain rfl := Option.some.inj h
    obtain ⟨hvt, hvts⟩ := List.append_subset.mp hvars
    refine (analysed_number ht hvt).bind fun e => ?_
    refine (completes_require fun c hc => ⟨_, hc.1⟩).bind fun _ => ?_
    refine ((ih hts' hvts).mono (fun _ hc => hc.2.2) fun _ _ hJ => hJ).bind fun es => ?_
    exact completes_pure fun _ hc => hc

theorem analysed_init {s : Statement} {i : Init} (hfresh : s.erase = s) (h : s.init = some i)
    {ys : List Text} (hscope : i.scope xs = some ys) :
    s.analyze.Completes (Typed xs) fun _ => Typed ys := by
  cases s with
  | letStmt x e type =>
    obtain ⟨t, ht, rfl⟩ := Option.map_eq_some_iff.mp h
    obtain ⟨hvars, hys⟩ := Option.ite_none_right_eq_some.mp hscope
    obtain rfl := Option.some.inj hys
    obtain rfl : none = type := by
      simp only [Statement.erase, Statement.letStmt.injEq] at hfresh
      exact hfresh.2.2
    refine ((analysed_number ht hvars).yields e.analyze_erase).bind fun e' => ?_
    have hlet : (analyzeLet x e' none).Completes (fun c => e'.erase = e.erase ∧
        e'.note.type = some (.primary .integer) ∧ Typed xs c) fun _ => Typed (x :: xs) := by
      rintro c ⟨herase, htype, hc⟩
      have hnumber : e'.number = some t := by
        rw [← e'.number_erase, herase, e.number_erase, ht]
      refine ⟨e'.note.type, c.setVarType x e'.note.type, ?_, htype ▸ hc.setVarType x⟩
      cases e' with
      | arrayLiteral n es => exact absurd hnumber (by simp [Expression.number])
      | _ => rfl
    exact hlet.bind fun type => completes_pure fun _ hc => hc
  | exprStatement stack e =>
    obtain ⟨a, ha, rfl⟩ := Option.map_eq_some_iff.mp h
    obtain ⟨hvars, hys⟩ := Option.ite_none_right_eq_some.mp hscope
    obtain rfl := Option.some.inj hys
    exact (analysed_action ha hvars).bind fun e => completes_pure fun _ hc => hc
  | _ => exact absurd h (by simp [Statement.init])

theorem analysed_all_of {ss : List Statement} {ps : List Command}
    (h : ∀ s ∈ ss, ∀ {xs ys : List Text} {p : Command}, s.erase = s → s.command = some p →
      p.scope xs = some ys → s.analyze.Completes (Typed xs) fun _ => Typed ys)
    (hfresh : eraseAll ss = ss) (hps : commands ss = some ps) {xs ys : List Text}
    (hscope : scopeAll xs ps = some ys) : (analyzeAll ss).Completes (Typed xs) fun _ => Typed ys := by
  induction ss generalizing ps xs with
  | nil =>
    obtain rfl := Option.some.inj hps
    obtain rfl := Option.some.inj hscope
    exact completes_pure fun _ hc => hc
  | cons s ss ih =>
    rw [List.forall_mem_cons] at h
    obtain ⟨hs, hss⟩ := List.cons.inj hfresh
    simp only [commands, Option.bind_eq_bind, Option.bind_eq_some_iff] at hps
    obtain ⟨p, hp, ps', hps', hps⟩ := hps
    obtain rfl := Option.some.inj hps
    obtain ⟨zs, hzs, hys⟩ := Option.bind_eq_some_iff.mp hscope
    exact (h.1 hs hp hzs).bind fun s => (ih h.2 hss hps' hys).bind fun ss => completes_pure fun _ hc => hc

/-- The analysis returns on a program that uses no variable before its declaration. -/
theorem analysed_statement (s : Statement) {ys : List Text} {p : Command} (hfresh : s.erase = s)
    (h : s.command = some p) (hscope : p.scope xs = some ys) :
    s.analyze.Completes (Typed xs) fun _ => Typed ys := by
  induction s using Statement.induction generalizing xs ys p with
  | block ss hss =>
    obtain ⟨ps, hps, rfl⟩ := Option.map_eq_some_iff.mp h
    have hfresh' := Statement.block.inj hfresh
    exact (analysed_all_of (fun s hs => hss s hs) hfresh' hps hscope).bind fun ss =>
      completes_pure fun _ hc => hc
  | forStmt init cond every blk _ hblk =>
    obtain ⟨s, c, e, i, t, a, ps, rfl, rfl, rfl, hi, ht, ha, hps, rfl⟩ := command_forStmt h
    obtain ⟨zs, hzs, hscope⟩ := Option.bind_eq_some_iff.mp hscope
    obtain ⟨⟨hvc, hva⟩, hscope⟩ := Option.ite_none_right_eq_some.mp hscope
    simp only [Statement.erase, eraseInit, Ptr.erase, Statement.forStmt.injEq, Ptr.to.injEq] at hfresh
    obtain ⟨hs, -, -, hfresh'⟩ := hfresh
    have hinit : (analyzeInit (.to s)).Completes (Typed xs) fun _ => Typed zs :=
      (analysed_init hs hi hzs).bind fun s => completes_pure fun _ hc => hc
    have hcond : (Ptr.to c).analyzeExpr.Completes (Typed zs) fun _ => Typed zs :=
      (analysed_truth ht hvc).bind fun c => completes_pure fun _ hc => hc.2
    have hevery : (Ptr.to e).analyzeExpr.Completes (Typed zs) fun _ => Typed zs :=
      (analysed_action ha hva).bind fun e => completes_pure fun _ hc => hc
    exact hinit.bind fun init => hcond.bind fun cond => hevery.bind fun every =>
      (analysed_all_of (fun s hs => hblk s hs) hfresh' hps hscope).bind fun blk =>
        completes_pure fun _ hc => hc
  | emit stack e =>
    obtain ⟨n, es, ts, rfl, -, hts, rfl⟩ := command_emit h
    obtain ⟨hvars, hys⟩ := Option.ite_none_right_eq_some.mp hscope
    obtain rfl := Option.some.inj hys
    have hrow : (Expression.rowLiteral n es).analyze.Completes (Typed xs) fun _ => Typed xs :=
      (analysed_elements hts hvars).bind fun es => completes_pure fun _ hc => hc
    exact hrow.bind fun e => completes_pure fun _ hc => hc
  | ifStmt cond ts fs hts hfs =>
    obtain ⟨c, ps, qs, hc, hps, hqs, rfl⟩ := command_ifStmt h
    obtain ⟨hvars, hscope⟩ := Option.ite_none_right_eq_some.mp hscope
    obtain ⟨zs, hzs, hys⟩ := Option.bind_eq_some_iff.mp hscope
    simp only [Statement.erase, Statement.ifStmt.injEq] at hfresh
    obtain ⟨-, hfresh, hfresh'⟩ := hfresh
    have helse : (analyzeElse fs).Completes (Typed zs) fun _ => Typed ys := by
      cases fs with
      | none =>
        obtain rfl := Option.some.inj hqs
        obtain rfl := Option.some.inj hys
        exact completes_pure fun _ hc => hc
      | some ss =>
        exact (analysed_all_of (fun s hs => hfs ss rfl s hs) (Option.some.inj hfresh') hqs hys).bind
          fun ss => completes_pure fun _ hc => hc
    exact (analysed_condition hc hvars).bind fun cond =>
      (analysed_all_of (fun s hs => hts s hs) hfresh hps hzs).bind fun ts =>
        helse.bind fun fs => completes_pure fun _ hc => hc
  | letStmt x e type =>
    obtain ⟨i, hi, rfl⟩ := Option.map_eq_some_iff.mp h
    exact analysed_init hfresh hi hscope
  | exprStatement stack e =>
    obtain ⟨i, hi, rfl⟩ := Option.map_eq_some_iff.mp h
    exact analysed_init hfresh hi hscope
  | _ => exact absurd h (by simp [Statement.command, Statement.init])

end

section
variable {T : Ctx} (hT : Numbered T)
include hT

theorem typeIn_number {e : Expression} {t : Number} (h : e.number = some t) (hvars : T.Binds t.vars) :
    e.typeIn T.typeEnv = some .i64 := by
  induction e using Expression.induction generalizing t with
  | primary n v =>
    cases v with
    | none => exact absurd h (by simp [Expression.number])
    | some w =>
      cases w with
      | int v => rfl
      | _ => exact absurd h (by simp [Expression.number])
  | binary n l op r hl hr =>
    simp only [Expression.number, Option.bind_eq_bind, Option.bind_eq_some_iff] at h
    obtain ⟨o, ho, l', hl', r', hr', h⟩ := h
    obtain rfl := Option.some.inj h
    obtain ⟨hvl, hvr⟩ := Ctx.Binds.append.mp hvars
    simp [Expression.typeIn, hl hl' hvl, hr hr' hvr]
  | variableRef n x =>
    obtain rfl := Option.some.inj h
    obtain ⟨i, hi⟩ := hvars x (List.mem_singleton_self x)
    exact slot_number hT hi
  | assign n target v _ hv =>
    cases target with
    | «variable» m x =>
      simp only [Expression.number, Option.bind_eq_bind, Option.bind_eq_some_iff] at h
      obtain ⟨v', hv', h⟩ := h
      obtain rfl := Option.some.inj h
      exact hv hv' (Ctx.Binds.cons.mp hvars).2
    | _ => exact absurd h (by simp [Expression.number])
  | _ => exact absurd h (by simp [Expression.number])

/-- The type of a condition is that of what is compared in it. -/
theorem typeIn_truth {e : Expression} {c : Condition} (h : e.truth = some c) (hvars : T.Binds c.vars) :
    e.typeIn T.typeEnv = some .i64 := by
  induction e using Expression.induction generalizing c with
  | binary n l op r hl hr =>
    have hoperand : ∀ {a : Expression} {b : Condition}, (∀ {c}, a.truth = some c → T.Binds c.vars →
        a.typeIn T.typeEnv = some .i64) → a.condition = some b → T.Binds b.vars →
          a.typeIn T.typeEnv = some .i64 := by
      intro a b ih hb hvars
      rcases Expression.condition_eq_some hb with htruth | ⟨t, ht, rfl⟩
      · exact ih htruth hvars
      · exact typeIn_number hT ht hvars
    have hparts : l.typeIn T.typeEnv = some .i64 ∧ r.typeIn T.typeEnv = some .i64 := by
      cases op with
      | conditionalAnd | conditionalOr =>
        simp only [Expression.truth, Option.bind_eq_bind, Option.bind_eq_some_iff] at h
        obtain ⟨l', hl', r', hr', h⟩ := h
        obtain rfl := Option.some.inj h
        obtain ⟨hvl, hvr⟩ := Ctx.Binds.append.mp hvars
        exact ⟨hoperand hl hl' hvl, hoperand hr hr' hvr⟩
      | _ =>
        simp only [Expression.truth, Option.bind_eq_bind, Option.bind_eq_some_iff] at h
        obtain ⟨o, -, l', hl', r', hr', h⟩ := h
        obtain rfl := Option.some.inj h
        obtain ⟨hvl, hvr⟩ := Ctx.Binds.append.mp hvars
        exact ⟨typeIn_number hT hl' hvl, typeIn_number hT hr' hvr⟩
    simp [Expression.typeIn, hparts]
  | _ => exact absurd h (by simp [Expression.truth])

theorem typesIn_numbers {es : List Expression} {ts : List Number} (h : pureNumbers es = some ts)
    (hvars : T.Binds (ts.flatMap Number.vars)) : typesIn T.typeEnv es = some (es.map fun _ => .i64) := by
  induction es generalizing ts with
  | nil => rfl
  | cons e es ih =>
    simp only [pureNumbers, Option.bind_eq_bind, Option.bind_eq_some_iff, Option.ite_none_right_eq_some] at h
    obtain ⟨t, ht, ts', hts', -, h⟩ := h
    obtain rfl := Option.some.inj h
    rw [List.flatMap_cons, Ctx.Binds.append] at hvars
    simp [typesIn, typeIn_number hT ht hvars.1, ih hts' hvars.2]

end

/-- A slot of no variable. -/
def Ctx.Spare (c : Ctx) (slot : Option ℕ) : Prop :=
  ∃ i, slot = some i ∧ i < c.slots.length ∧ ∀ x, (c.vars x).join ≠ some i

/-- The given variables have slots of their own, and the other slots are spare. -/
structure Slotted (xs : List Text) (l : List (Option ℕ)) (c : Ctx) : Prop where
  numbered : Numbered c
  binds : c.Binds xs
  spare : ∀ i ∈ l, c.Spare i

mutual

/-- The slots of the emitted rows. -/
def Statement.emitSlots : Statement → List (Option ℕ)
  | .block ss => emitSlotsAll ss
  | .forStmt _ _ _ blk => emitSlotsAll blk
  | .emit slot _ => [slot]
  | .ifStmt _ ts fs => emitSlotsAll ts ++ emitSlotsElse fs
  | _ => []

def emitSlotsElse : Option (List Statement) → List (Option ℕ)
  | none => []
  | some ss => emitSlotsAll ss

def emitSlotsAll : List Statement → List (Option ℕ)
  | [] => []
  | s :: ss => s.emitSlots ++ emitSlotsAll ss

end

attribute [local simp] Statement.emitSlots emitSlotsAll

namespace Slotted
variable {xs ys : List Text} {l l' : List (Option ℕ)} {c c' : Ctx}

theorem mono (h : Slotted xs l c) (hxs : ys ⊆ xs) (hl : l' ⊆ l) : Slotted ys l' c :=
  ⟨h.numbered, fun x hx => h.binds x (hxs hx), fun i hi => h.spare i (hl hi)⟩

theorem of_eq (h : Slotted xs l c) (hv : c'.vars = c.vars) (hs : c'.slots = c.slots) : Slotted xs l c' := by
  refine ⟨⟨?_, ?_⟩, ?_, ?_⟩
  · rw [hv, hs]
    exact h.numbered.integer
  · rw [hv]
    exact h.numbered.injective
  · rw [Ctx.Binds, hv]
    exact h.binds
  · intro i hi
    rw [Ctx.Spare, hv, hs]
    exact h.spare i hi

theorem lt_length (h : Slotted xs l c) {x : Text} {i : ℕ} (hi : (c.vars x).join = some i) :
    i < c.slots.length := by
  have hslot := h.numbered.integer x i hi
  exact (List.getElem?_eq_some_iff.mp hslot).1

/-- A new slot is spare. -/
theorem newSlot (h : Slotted xs l c) (ty : LLType) : Slotted xs (some c.slots.length :: l) (c.newSlot ty) where
  numbered := by
    refine ⟨fun x i hi => ?_, h.numbered.injective⟩
    change (c.slots ++ [ty])[i]? = _
    rw [List.getElem?_append_left (h.lt_length hi)]
    exact h.numbered.integer x i hi
  binds := h.binds
  spare := by
    have hlength : (c.newSlot ty).slots.length = c.slots.length+1 := List.length_append
    rw [List.forall_mem_cons]
    constructor
    · refine ⟨_, rfl, by omega, fun x hx => ?_⟩
      exact absurd (h.lt_length hx) (lt_irrefl _)
    · intro slot hslot
      obtain ⟨i, rfl, hlt, hspare⟩ := h.spare slot hslot
      exact ⟨i, rfl, by omega, hspare⟩

/-- A new slot for a variable. -/
theorem setVar (h : Slotted xs l c) (x : Text) :
    Slotted (x :: xs) l ((c.newSlot .i64).setVar x (some c.slots.length)) := by
  have hnew := h.newSlot .i64
  have hself : (((c.newSlot .i64).setVar x (some c.slots.length)).vars x).join = some c.slots.length := by
    simp [Ctx.setVar]
  have hother : ∀ y, y ≠ x →
      ((c.newSlot .i64).setVar x (some c.slots.length)).vars y = c.vars y := by
    intro y hy
    simp [Ctx.setVar, Ctx.newSlot, Ctx.append, hy]
  refine ⟨⟨?_, ?_⟩, ?_, ?_⟩
  · intro y i hi
    by_cases hy : y = x
    · subst hy
      obtain rfl := Option.some.inj (hself.symm.trans hi)
      simp [Ctx.setVar, Ctx.newSlot]
    · rw [hother y hy] at hi
      exact hnew.numbered.integer y i hi
  · intro y z i hy hz
    by_cases hyx : y = x <;> by_cases hzx : z = x
    · rw [hyx, hzx]
    · subst hyx
      obtain rfl := Option.some.inj (hself.symm.trans hy)
      rw [hother z hzx] at hz
      exact absurd (h.lt_length hz) (lt_irrefl _)
    · subst hzx
      obtain rfl := Option.some.inj (hself.symm.trans hz)
      rw [hother y hyx] at hy
      exact absurd (h.lt_length hy) (lt_irrefl _)
    · rw [hother y hyx] at hy
      rw [hother z hzx] at hz
      exact h.numbered.injective y z i hy hz
  · intro y hy
    by_cases hyx : y = x
    · subst hyx
      exact ⟨_, hself⟩
    · rw [hother y hyx]
      exact h.binds y ((List.mem_cons.mp hy).resolve_left hyx)
  · intro slot hslot
    obtain ⟨i, rfl, hlt, hspare⟩ := h.spare slot hslot
    have hlength : (c.newSlot .i64).slots.length = c.slots.length+1 := List.length_append
    refine ⟨i, rfl, Nat.lt_of_lt_of_eq (by omega) hlength.symm, fun y hy => ?_⟩
    by_cases hyx : y = x
    · subst hyx
      obtain rfl := Option.some.inj (hself.symm.trans hy)
      exact absurd hlt (lt_irrefl _)
    · rw [hother y hyx] at hy
      exact hspare y hy

end Slotted

section
variable {xs : List Text} {l : List (Option ℕ)}

/-- The type of an expression is found. -/
theorem completes_getType {e : Expression} {t : LLType}
    (h : ∀ c, Slotted xs l c → e.typeIn c.typeEnv = some t) :
    e.getType.Completes (Slotted xs l) fun t' c => t' = t ∧ Slotted xs l c := by
  intro c hc
  obtain ⟨c', hrun⟩ := (e.computes_getType.ok_iff c t).mpr (h c hc)
  have hemits := emitsRules.getType e hrun
  exact ⟨t, c', hrun, rfl, hc.of_eq hemits.vars_eq hemits.slots_eq⟩

/-- What is no struct gets no slot. -/
theorem completes_spill {e : Expression} {t : LLType} (ht : t.isStruct = false)
    (h : ∀ c, Slotted xs l c → e.typeIn c.typeEnv = some t) (n : Note) :
    (spill e n).Completes (Slotted xs l) fun _ => Slotted xs l := by
  refine (completes_getType h).bind fun t' => ?_
  by_cases htype : t' = t
  · subst htype
    rw [if_neg (by simp [ht])]
    exact completes_pure fun _ hc => hc.2
  · rintro c ⟨hc, -⟩
    exact absurd hc htype

theorem Slotted.typeIn_number {e : Expression} {t : Number} (h : e.number = some t) (hvars : t.vars ⊆ xs)
    {c : Ctx} (hc : Slotted xs l c) : e.typeIn c.typeEnv = some .i64 :=
  Reir.typeIn_number hc.numbered h fun x hx => hc.binds x (hvars hx)

theorem Slotted.typeIn_truth {e : Expression} {t : Condition} (h : e.truth = some t) (hvars : t.vars ⊆ xs)
    {c : Ctx} (hc : Slotted xs l c) : e.typeIn c.typeEnv = some .i64 :=
  Reir.typeIn_truth hc.numbered h fun x hx => hc.binds x (hvars hx)

theorem completes_eachValue {e : Expression} {t : Number} (h : e.number = some t) (hvars : t.vars ⊆ xs)
    (n : Note) : (e.eachValue n).Completes (Slotted xs l) fun _ => Slotted xs l := by
  have hspill : ∀ m, (spill e m).Completes (Slotted xs l) fun _ => Slotted xs l :=
    completes_spill rfl fun _ hc => hc.typeIn_number h hvars
  induction e using Expression.induction generalizing t n with
  | primary m v => exact completes_pure fun _ hc => hc
  | binary m l op r _ _ => exact completes_pure fun _ hc => hc
  | variableRef m x => exact (hspill n).bind fun n => completes_pure fun _ hc => hc
  | assign m target v _ hv =>
    cases target with
    | «variable» m' x =>
      simp only [Expression.number, Option.bind_eq_bind, Option.bind_eq_some_iff] at h
      obtain ⟨v', hv', h⟩ := h
      obtain rfl := Option.some.inj h
      obtain ⟨-, hvars'⟩ := List.cons_subset.mp hvars
      refine (hspill n).bind fun n => ?_
      refine (hv hv' hvars' v.note (completes_spill rfl fun _ hc => hc.typeIn_number hv' hvars')).bind
        fun v => completes_pure fun _ hc => hc
    | _ => exact absurd h (by simp [Expression.number])
  | _ => exact absurd h (by simp [Expression.number])

/-- The allocation for an expression statement. -/
theorem completes_exprStatement {e : Expression} {a : Action} (h : e.action = some a) (hvars : a.vars ⊆ xs)
    (stack : Option ℕ) : (Statement.exprStatement stack e).allocaStack.Completes (Slotted xs l)
      fun _ => Slotted xs l := by
  have hspill : ∀ n, (spill e n).Completes (Slotted xs l) fun _ => Slotted xs l := by
    rcases Expression.action_eq_some h with ⟨t, ht, rfl⟩ | ⟨t, ht, rfl⟩ | ⟨c, hc, rfl⟩
    · unfold Expression.printed at ht
      split at ht
      case h_2 => exact absurd ht (by simp)
      split_ifs at ht with hf
      subst hf
      exact completes_spill (t := .void) rfl fun _ _ => rfl
    · exact completes_spill rfl fun _ hc => hc.typeIn_number ht hvars
    · exact completes_spill rfl fun _ hc' => hc'.typeIn_truth hc hvars
  have heach : ∀ n, (e.eachValue n).Completes (Slotted xs l) fun _ => Slotted xs l := by
    intro n
    rcases Expression.action_eq_some h with ⟨t, ht, rfl⟩ | ⟨t, ht, rfl⟩ | ⟨c, hc, rfl⟩
    · unfold Expression.printed at ht
      split at ht
      case h_2 => exact absurd ht (by simp)
      split_ifs at ht with hf
      have harg := completes_spill (l := l) (t := .i64) rfl fun _ hc => hc.typeIn_number ht hvars
      refine Completes.bind (J := fun _ => Slotted xs l) ?_ fun as => completes_pure fun _ hc => hc
      exact (harg _).bind fun n => (completes_eachValue ht hvars n).bind fun e =>
        Completes.bind (J := fun _ => Slotted xs l) (completes_pure fun _ hc => hc) fun es =>
          completes_pure fun _ hc => hc
    · exact completes_eachValue ht hvars n
    · cases e with
      | binary m l op r => exact completes_pure fun _ hc => hc
      | _ => exact absurd hc (by simp [Expression.truth])
  exact (hspill _).bind fun n => (heach _).bind fun e => completes_pure fun _ hc => hc

theorem completes_letStmt {e : Expression} {t : Number} (h : e.number = some t) (hvars : t.vars ⊆ xs)
    (x : Text) (type : Option NodeType) : (Statement.letStmt x e type).allocaStack.Completes (Slotted xs l)
      fun _ => Slotted (x :: xs) l := by
  intro c hc
  obtain ⟨_, c₁, hrun, rfl, hc₁⟩ := completes_getType (fun _ hc => hc.typeIn_number h hvars) hc
  refine ⟨.letStmt x e type, _, ?_, hc₁.setVar x⟩
  simp only [Statement.allocaStack, bind_eq_ok, pure_eq_ok, createAlloca_eq_ok, modify_eq_ok]
  exact ⟨_, c₁, hrun, _, _, ⟨rfl, rfl⟩, (), _, rfl, trivial, rfl⟩

theorem allocated_init {s : Statement} {i : Init} (h : s.init = some i) {ys : List Text}
    (hscope : i.scope xs = some ys) : s.allocaStack.Completes (Slotted xs l) fun _ => Slotted ys l := by
  cases s with
  | letStmt x e type =>
    obtain ⟨t, ht, rfl⟩ := Option.map_eq_some_iff.mp h
    obtain ⟨hvars, hys⟩ := Option.ite_none_right_eq_some.mp hscope
    obtain rfl := Option.some.inj hys
    exact completes_letStmt ht hvars x type
  | exprStatement stack e =>
    obtain ⟨a, ha, rfl⟩ := Option.map_eq_some_iff.mp h
    obtain ⟨hvars, hys⟩ := Option.ite_none_right_eq_some.mp hscope
    obtain rfl := Option.some.inj hys
    exact completes_exprStatement ha hvars stack
  | _ => exact absurd h (by simp [Statement.init])

theorem Statement.emitSlots_init {s : Statement} {i : Init} (h : s.init = some i) : s.emitSlots = [] := by
  cases s with
  | letStmt x e type => rfl
  | exprStatement stack e => rfl
  | _ => exact absurd h (by simp [init])

theorem allocated_initStatement {s : Statement} {i : Init} (h : s.init = some i) {ys : List Text}
    (hscope : i.scope xs = some ys) :
    s.allocaStack.Completes (Slotted xs l) fun s' => Slotted ys (s'.emitSlots ++ l) := by
  refine ((allocated_init h hscope).yields s.allocaStack_erase).mono (fun _ hc => hc) ?_
  rintro s' c ⟨herase, hc⟩
  have hinit : s'.init = some i := by rw [← s'.init_erase, herase, s.init_erase, h]
  rw [s'.emitSlots_init hinit]
  exact hc

/-- The init part of a loop is allocated once more. -/
theorem Init.scope_again {i : Init} {xs ys : List Text} (h : i.scope xs = some ys) :
    ∃ zs, i.scope ys = some zs ∧ ys ⊆ zs := by
  cases i with
  | letVar x e =>
    obtain ⟨hvars, hys⟩ := Option.ite_none_right_eq_some.mp h
    obtain rfl := Option.some.inj hys
    exact ⟨x :: x :: xs, if_pos (List.subset_cons_of_subset x hvars), List.subset_cons_self _ _⟩
  | action a =>
    obtain ⟨hvars, hys⟩ := Option.ite_none_right_eq_some.mp h
    obtain rfl := Option.some.inj hys
    exact ⟨xs, if_pos hvars, List.Subset.refl _⟩

theorem allocated_forInit {s : Statement} {i : Init} (h : s.init = some i) {ys : List Text}
    (hscope : i.scope xs = some ys) {β : Type} {f : Ptr Statement → Gen β} {J : β → Ctx → Prop}
    (hf : ∀ s' : Statement, (f (.to s')).Completes (Slotted ys l) J) :
    (allocaInit (.to s) >>= fun init => allocaInit init >>= f).Completes (Slotted xs l) J := by
  intro c hc
  obtain ⟨s₁, c₁, h₁, herase, hc₁⟩ := (allocated_init h hscope).yields s.allocaStack_erase hc
  obtain ⟨zs, hzs, hsub⟩ := Init.scope_again hscope
  have hinit : s₁.init = some i := by rw [← s₁.init_erase, herase, s.init_erase, h]
  obtain ⟨s₂, c₂, h₂, hc₂⟩ := allocated_init hinit hzs hc₁
  obtain ⟨b, c', hrun, hJ⟩ := hf s₂ (hc₂.mono hsub (List.Subset.refl l))
  refine ⟨b, c', ?_, hJ⟩
  have hfirst : (allocaInit (.to s)).run c = .ok (.to s₁, c₁) := bind_eq_ok.mpr ⟨s₁, c₁, h₁, rfl⟩
  have hsecond : (allocaInit (.to s₁)).run c₁ = .ok (.to s₂, c₂) := bind_eq_ok.mpr ⟨s₂, c₂, h₂, rfl⟩
  exact bind_eq_ok.mpr ⟨_, c₁, hfirst, bind_eq_ok.mpr ⟨_, c₂, hsecond, hrun⟩⟩

theorem allocated_all_of {ss : List Statement} {ps : List Command}
    (h : ∀ s ∈ ss, ∀ {xs ys : List Text} {l : List (Option ℕ)} {p : Command}, s.command = some p →
      p.scope xs = some ys → s.visit.Completes (Slotted xs l) fun s' => Slotted ys (s'.emitSlots ++ l))
    (hps : commands ss = some ps) {xs ys : List Text} {l : List (Option ℕ)} (hscope : scopeAll xs ps = some ys) :
    (eachStatement ss).Completes (Slotted xs l) fun ss' => Slotted ys (emitSlotsAll ss' ++ l) := by
  induction ss generalizing ps xs l with
  | nil =>
    obtain rfl := Option.some.inj hps
    obtain rfl := Option.some.inj hscope
    exact completes_pure fun _ hc => hc
  | cons s ss ih =>
    rw [List.forall_mem_cons] at h
    simp only [commands, Option.bind_eq_bind, Option.bind_eq_some_iff] at hps
    obtain ⟨p, hp, ps', hps', hps⟩ := hps
    obtain rfl := Option.some.inj hps
    obtain ⟨zs, hzs, hys⟩ := Option.bind_eq_some_iff.mp hscope
    refine (h.1 hp hzs).bind fun s => (ih h.2 hps' hys).bind fun ss => completes_pure fun _ hc => ?_
    refine hc.mono (List.Subset.refl _) fun i hi => ?_
    simp only [emitSlotsAll, List.mem_append] at hi ⊢
    tauto

/-- The allocation pass returns on a program that uses no variable before its declaration. -/
theorem allocated_statement (s : Statement) {ys : List Text} {p : Command} (h : s.command = some p)
    (hscope : p.scope xs = some ys) :
    s.visit.Completes (Slotted xs l) fun s' => Slotted ys (s'.emitSlots ++ l) := by
  induction s using Statement.induction generalizing xs ys p l with
  | block ss hss =>
    obtain ⟨ps, hps, rfl⟩ := Option.map_eq_some_iff.mp h
    exact (allocated_all_of (fun s hs => hss s hs) hps hscope).bind fun ss => completes_pure fun _ hc => hc
  | forStmt init cond every blk _ hblk =>
    obtain ⟨s, c, e, i, t, a, ps, rfl, rfl, rfl, hi, ht, ha, hps, rfl⟩ := command_forStmt h
    obtain ⟨zs, hzs, hscope⟩ := Option.bind_eq_some_iff.mp hscope
    obtain ⟨-, hscope⟩ := Option.ite_none_right_eq_some.mp hscope
    refine allocated_forInit hi hzs fun s' => ?_
    exact (allocated_all_of (fun s hs => hblk s hs) hps hscope).bind fun blk =>
      completes_pure fun _ hc => hc
  | emit stack e =>
    obtain ⟨n, es, ts, rfl, -, hts, rfl⟩ := command_emit h
    obtain ⟨hvars, hys⟩ := Option.ite_none_right_eq_some.mp hscope
    obtain rfl := Option.some.inj hys
    have htype : ∀ c, Slotted xs l c →
        (Expression.rowLiteral n es).typeIn c.typeEnv = some (.row (es.map fun _ => .i64)) := by
      intro c hc
      simp [Expression.typeIn, typesIn_numbers hc.numbered hts fun x hx => hc.binds x (hvars hx)]
    refine (completes_getType htype).bind fun t => ?_
    rintro c ⟨rfl, hc⟩
    exact ⟨_, _, rfl, hc.newSlot _⟩
  | ifStmt cond ts fs hts hfs =>
    obtain ⟨c, ps, qs, hc, hps, hqs, rfl⟩ := command_ifStmt h
    obtain ⟨-, hscope⟩ := Option.ite_none_right_eq_some.mp hscope
    obtain ⟨zs, hzs, hys⟩ := Option.bind_eq_some_iff.mp hscope
    have helse : ∀ l, (eachElse fs).Completes (Slotted zs l)
        fun fs' => Slotted ys (emitSlotsElse fs' ++ l) := by
      intro l
      cases fs with
      | none =>
        obtain rfl := Option.some.inj hqs
        obtain rfl := Option.some.inj hys
        exact completes_pure fun _ hc => hc
      | some ss =>
        exact (allocated_all_of (fun s hs => hfs ss rfl s hs) hqs hys).bind fun ss =>
          completes_pure fun _ hc => hc
    refine (allocated_all_of (fun s hs => hts s hs) hps hzs).bind fun ts => (helse _).bind fun fs =>
      completes_pure fun _ hc => ?_
    refine hc.mono (List.Subset.refl _) fun i hi => ?_
    simp only [Statement.emitSlots, List.mem_append] at hi ⊢
    tauto
  | letStmt x e type =>
    obtain ⟨i, hi, rfl⟩ := Option.map_eq_some_iff.mp h
    exact allocated_initStatement hi hscope
  | exprStatement stack e =>
    obtain ⟨i, hi, rfl⟩ := Option.map_eq_some_iff.mp h
    exact allocated_initStatement hi hscope
  | _ => exact absurd h (by simp [Statement.command, Statement.init])

end

/-- The passes in front of code generation return. -/
theorem passes_returns {ss : List Statement} {ps : List Command} {xs : List Text}
    (hfresh : eraseAll ss = ss) (hps : commands ss = some ps) (hscope : scopeAll [] ps = some xs) :
    ∃ ss' c, (passes ss).run Ctx.initial = .ok (ss', c) ∧ commands ss' = some ps ∧
      Slotted xs (emitSlotsAll ss') c := by
  obtain ⟨ss₁, c₁, h₁, -⟩ := analysed_all_of (fun s _ => analysed_statement s) hfresh hps hscope typed_initial
  have hps₁ : commands ss₁ = some ps := by rw [commands_congr (analyzeAll_erase ss h₁), hps]
  have hkeeps := analyzeAll_keeps ss h₁
  have hvars : c₁.vars = fun _ => none := congrArg Ctx.vars hkeeps
  have hslotted : Slotted [] [] (c₁.newBlock.moveTo c₁.blocks.length) := by
    have hnone : ∀ x i, (c₁.vars x).join ≠ some i := by
      intro x i hi
      rw [hvars] at hi
      exact absurd hi (by simp)
    refine ⟨⟨fun x i hi => absurd hi (hnone x i), fun x y i hi => absurd hi (hnone x i)⟩, ?_, ?_⟩
    · exact fun x hx => absurd hx (by simp)
    · exact fun i hi => absurd hi (by simp)
  obtain ⟨ss', c, h, hc⟩ := allocated_all_of (fun s _ => allocated_statement s) hps₁ hscope hslotted
  refine ⟨ss', c, ?_, ?_, ?_⟩
  · simp only [passes, bind_eq_ok, createBlock_eq_ok, setInsertPoint_eq_ok]
    exact ⟨ss₁, c₁, h₁, _, _, ⟨rfl, rfl⟩, (), _, rfl, h⟩
  · rw [commands_congr (eachStatement_erase ss₁ h), hps₁]
  · rwa [List.append_nil] at hc

/-- A step of code generation returns over the given tables, with a result of this kind. -/
def Gen.Generates {α : Type} (T : Ctx) (p : Gen α) (Q : α → Prop) : Prop :=
  p.Completes (fun c => c.tables = T) fun a c => Q a ∧ c.tables = T

section
variable {α β : Type} {T : Ctx} {p : Gen α} {f : α → Gen β} {P Q : α → Prop} {R : β → Prop}

theorem Gen.Generates.bind (hp : p.Generates T P) (hf : ∀ a, P a → (f a).Generates T R) :
    (p >>= f).Generates T R := by
  refine Completes.bind hp fun a => ?_
  rintro c ⟨ha, hc⟩
  exact hf a ha hc

theorem Gen.Generates.mono (h : p.Generates T P) (hQ : ∀ a, P a → Q a) : p.Generates T Q :=
  Completes.mono h (fun _ hc => hc) fun a _ ha => ⟨hQ a ha.1, ha.2⟩

/-- What emits leaves the tables as they are. -/
theorem generates_of (hp : p.Emits) (h : p.Completes (fun c => c.tables = T) fun a _ => Q a) :
    p.Generates T Q := by
  intro c hc
  obtain ⟨a, c', hrun, ha⟩ := h hc
  exact ⟨a, c', hrun, ha, (hp hrun).tables_eq.trans hc⟩

theorem generates_pure {a : α} (h : Q a) : (Pure.pure a : Gen α).Generates T Q :=
  completes_pure fun _ hc => ⟨h, hc⟩

theorem generates_get : Gen.get.Generates T fun c => c.tables = T := fun c hc => ⟨c, c, rfl, hc, hc⟩

theorem generates_require {e : CompileError} {o : Option α} {a : α} (h : o = some a) :
    (require e o).Generates T fun a' => a' = a := by
  subst h
  exact fun c hc => ⟨a, c, rfl, rfl, hc⟩

theorem generates_emitInstr (i : Instr) : (emitInstr i).Generates T fun _ => True :=
  fun _ hc => ⟨(), _, rfl, trivial, hc⟩

theorem generates_emitResult (mk : ℕ → Instr) (ty : LLType) :
    (emitResult mk ty).Generates T fun v => v.ty = ty := fun _ hc => ⟨_, _, rfl, rfl, hc⟩

theorem generates_createBlock : createBlock.Generates T fun _ => True :=
  fun _ hc => ⟨_, _, rfl, trivial, hc⟩

theorem generates_setInsertPoint (b : ℕ) : (setInsertPoint b).Generates T fun _ => True :=
  fun _ hc => ⟨(), _, rfl, trivial, hc⟩

theorem generates_getInsertBlock : getInsertBlock.Generates T fun _ => True :=
  fun _ hc => ⟨_, _, rfl, trivial, hc⟩

/-- A slot is loaded from. -/
theorem generates_createLoad (i : ℕ) (ty : LLType) :
    (createLoad (slotPtr i ty)).Generates T fun v => v.ty = ty := fun _ hc => ⟨_, _, rfl, rfl, hc⟩

theorem generates_createCall {f : Text} {ty : LLType} (hf : functionType f = some ty) (tag : Tag)
    (args : List LLValue) : (createCall tag f args).Generates T fun _ => True :=
  (generates_require hf).bind fun _ _ => (generates_emitResult _ _).mono fun _ _ => trivial

theorem generates_createBitCast (v : LLValue) (ty : LLType) :
    (createBitCast v ty).Generates T fun _ => True := by
  unfold createBitCast
  split_ifs
  · exact generates_pure trivial
  · exact (generates_emitResult _ _).mono fun _ _ => trivial

theorem generates_toI1 (v : LLValue) : (toI1 v).Generates T fun _ => True := by
  unfold toI1
  split_ifs
  · exact generates_pure trivial
  · exact (generates_emitResult _ _).mono fun _ _ => trivial

theorem generates_getType {e : Expression} {t : LLType} (h : e.typeIn T.typeEnv = some t) :
    e.getType.Generates T fun t' => t' = t := by
  refine generates_of (emitsRules.getType e) fun c hc => ?_
  have htype : e.typeIn c.typeEnv = some t := by
    rw [← h, ← hc]
    rfl
  obtain ⟨c', hrun⟩ := (e.computes_getType.ok_iff c t).mpr htype
  exact ⟨t, c', hrun, rfl⟩

theorem generates_slotOf {i : ℕ} {ty : LLType} (h : T.slots[i]? = some ty) :
    (slotOf (some i)).Generates T fun p => p = slotPtr i ty := by
  refine (generates_require rfl).bind fun j hj => generates_get.bind fun c hc => ?_
  have hslot : c.slots[j]? = some ty := by
    rw [hj, ← h, ← hc]
    rfl
  refine (generates_require hslot).bind fun ty' hty => generates_pure ?_
  rw [hj, hty]

theorem generates_findVar {x : Text} {t : LLType} (h : T.typeEnv.slot x = some t) :
    (findVar x).Generates T fun p => ∃ i, p = slotPtr i t := by
  intro c hc
  have hslot : c.typeEnv.slot x = some t := by
    rw [← h, ← hc]
    rfl
  obtain ⟨i, hrun⟩ := findVar_run hslot
  exact ⟨_, c, hrun, ⟨i, rfl⟩, hc⟩

/-- The result of an arithmetic operator is of the type of its operands. -/
theorem generates_arith {op : Operators} {o : Arith} (h : op.arith = some o) (l r : LLValue) :
    (strictOperator op l r).Generates T fun v => v.ty = l.ty := by
  cases op with
  | plus | minus | multiple | division | modulo =>
    rw [strictOperator, createBinary]
    exact generates_emitResult _ _
  | _ => exact absurd h (by simp [Operators.arith])

theorem generates_comparison {op : Operators} {o : Comparison} (h : op.comparison = some o)
    (l r : LLValue) : (strictOperator op l r).Generates T fun v => v.ty = .i1 := by
  cases op with
  | equal | notequal | lessthan | lessequal | morethan | moreequal =>
    rw [strictOperator, createICmp]
    exact generates_emitResult _ _
  | _ => exact absurd h (by simp [Operators.comparison])

theorem generates_conditionalValue {forAnd : Bool} {lhs rhs : Gen LLValue}
    (hl : lhs.Generates T fun _ => True) (hr : rhs.Generates T fun _ => True) :
    (conditionalValue forAnd lhs rhs).Generates T fun _ => True := by
  refine generates_createBlock.bind fun next _ => generates_createBlock.bind fun fin _ => ?_
  refine hl.bind fun lv _ => (generates_toI1 lv).bind fun lh _ => ?_
  refine (generates_emitInstr _).bind fun _ _ => generates_getInsertBlock.bind fun current _ => ?_
  refine (generates_setInsertPoint _).bind fun _ _ => hr.bind fun rv _ => ?_
  refine (generates_toI1 rv).bind fun rh _ => (generates_emitInstr _).bind fun _ _ => ?_
  refine generates_getInsertBlock.bind fun last _ => (generates_setInsertPoint _).bind fun _ _ => ?_
  exact (generates_emitResult _ _).mono fun _ _ => trivial

end

section
variable {T : Ctx} (hT : Numbered T)
include hT

theorem generates_number {e : Expression} {t : Number} (h : e.number = some t) (hvars : T.Binds t.vars) :
    e.getValue.Generates T fun v => v.ty = .i64 := by
  have hvariable : ∀ x, T.Binds [x] → (findVar x).Generates T fun p => ∃ i, p = slotPtr i .i64 := by
    intro x hx
    obtain ⟨i, hi⟩ := hx x (List.mem_singleton_self x)
    exact generates_findVar (slot_number hT hi)
  induction e using Expression.induction generalizing t with
  | primary n v =>
    cases v with
    | none => exact absurd h (by simp [Expression.number])
    | some w =>
      cases w with
      | int v => exact generates_pure rfl
      | _ => exact absurd h (by simp [Expression.number])
  | binary n l op r hl hr =>
    simp only [Expression.number, Option.bind_eq_bind, Option.bind_eq_some_iff] at h
    obtain ⟨o, ho, l', hl', r', hr', h⟩ := h
    obtain rfl := Option.some.inj h
    obtain ⟨hvl, hvr⟩ := Ctx.Binds.append.mp hvars
    have hstrict : (Expression.binary n l op r).getValue =
        l.getValue >>= fun lh => r.getValue >>= fun rh => strictOperator op lh rh := by
      cases op with
      | conditionalAnd | conditionalOr => exact absurd ho (by simp [Operators.arith])
      | _ => rfl
    rw [hstrict]
    refine (hl hl' hvl).bind fun lv hlv => (hr hr' hvr).bind fun rv _ => ?_
    exact (generates_arith ho lv rv).mono fun v hv => hv.trans hlv
  | variableRef n x =>
    obtain rfl := Option.some.inj h
    refine (hvariable x hvars).bind fun p hp => ?_
    obtain ⟨i, rfl⟩ := hp
    exact generates_createLoad i _
  | assign n target v _ hv =>
    cases target with
    | «variable» m x =>
      simp only [Expression.number, Option.bind_eq_bind, Option.bind_eq_some_iff] at h
      obtain ⟨v', hv', h⟩ := h
      obtain rfl := Option.some.inj h
      obtain ⟨hx, hvars'⟩ := Ctx.Binds.cons.mp hvars
      refine (hvariable x (by simpa [Ctx.Binds] using hx)).bind fun p hp => ?_
      obtain ⟨i, rfl⟩ := hp
      exact (hv hv' hvars').bind fun v _ => (generates_emitInstr _).bind fun _ _ => generates_createLoad i _
    | _ => exact absurd h (by simp [Expression.number])
  | _ => exact absurd h (by simp [Expression.number])

theorem generates_truth {e : Expression} {c : Condition} (h : e.truth = some c) (hvars : T.Binds c.vars) :
    e.getValue.Generates T fun _ => True := by
  induction e using Expression.induction generalizing c with
  | binary n l op r hl hr =>
    have hoperand : ∀ {a : Expression} {b : Condition}, (∀ {c}, a.truth = some c → T.Binds c.vars →
        a.getValue.Generates T fun _ => True) → a.condition = some b → T.Binds b.vars →
          a.getValue.Generates T fun _ => True := by
      intro a b ih hb hvars
      rcases Expression.condition_eq_some hb with htruth | ⟨t, ht, rfl⟩
      · exact ih htruth hvars
      · exact (generates_number hT ht hvars).mono fun _ _ => trivial
    cases op with
    | conditionalAnd | conditionalOr =>
      simp only [Expression.truth, Option.bind_eq_bind, Option.bind_eq_some_iff] at h
      obtain ⟨l', hl', r', hr', h⟩ := h
      obtain rfl := Option.some.inj h
      obtain ⟨hvl, hvr⟩ := Ctx.Binds.append.mp hvars
      exact generates_conditionalValue (hoperand hl hl' hvl) (hoperand hr hr' hvr)
    | _ =>
      simp only [Expression.truth, Option.bind_eq_bind, Option.bind_eq_some_iff] at h
      obtain ⟨o, ho, l', hl', r', hr', h⟩ := h
      obtain rfl := Option.some.inj h
      obtain ⟨hvl, hvr⟩ := Ctx.Binds.append.mp hvars
      refine (generates_number hT hl' hvl).bind fun lv _ => (generates_number hT hr' hvr).bind fun rv _ => ?_
      exact (generates_comparison ho lv rv).mono fun _ _ => trivial
  | _ => exact absurd h (by simp [Expression.truth])

theorem generates_condition {e : Expression} {c : Condition} (h : e.condition = some c)
    (hvars : T.Binds c.vars) : e.getValue.Generates T fun _ => True := by
  rcases Expression.condition_eq_some h with hc | ⟨t, ht, rfl⟩
  · exact generates_truth hT hc hvars
  · exact (generates_number hT ht hvars).mono fun _ _ => trivial

theorem generates_print {e : Expression} {t : Number} (h : e.printed = some t) (hvars : T.Binds t.vars) :
    e.getValue.Generates T fun _ => True := by
  unfold Expression.printed at h
  split at h
  case h_2 => exact absurd h (by simp)
  rename_i n m f a
  split_ifs at h with hf
  subst hf
  have hpass : ∀ v : LLValue, v.ty = .i64 → (passArgument a.note.stack v).Generates T fun _ => True := by
    intro v hv
    have hpure : passArgument a.note.stack v = Pure.pure v := by
      simp [passArgument, hv, LLType.isInteger]
    rw [hpure]
    exact generates_pure trivial
  have hargs : (getArgs [a]).Generates T fun _ => True :=
    (generates_number hT h hvars).bind fun v hv => (hpass v hv).bind fun arg _ =>
      Gen.Generates.bind (P := fun _ => True) (generates_pure trivial) fun _ _ => generates_pure trivial
  have hname : (calleeName (.variable m (text "print_int"))).Generates T fun f => f = text "print_int" :=
    generates_pure rfl
  refine hname.bind fun f hf => ?_
  subst hf
  exact (generates_require rfl).bind fun _ _ => hargs.bind fun vs _ => generates_createCall rfl _ _

theorem generates_action {e : Expression} {a : Action} (h : e.action = some a) (hvars : T.Binds a.vars) :
    (e.getValue >>= fun _ => (Pure.pure () : Gen Unit)).Generates T fun _ => True := by
  have hvalue : e.getValue.Generates T fun _ => True := by
    rcases Expression.action_eq_some h with ⟨t, ht, rfl⟩ | ⟨t, ht, rfl⟩ | ⟨c, hc, rfl⟩
    · exact generates_print hT ht hvars
    · exact (generates_number hT ht hvars).mono fun _ _ => trivial
    · exact generates_truth hT hc hvars
  exact hvalue.bind fun _ _ => generates_pure trivial

theorem generates_letCode {e : Expression} {t : Number} (h : e.number = some t) (hvars : T.Binds t.vars)
    {x : Text} (hx : ∃ i, (T.vars x).join = some i) : (letCode x e).Generates T fun _ => True := by
  obtain ⟨i, hi⟩ := hx
  refine (generates_getType (typeIn_number hT h hvars)).bind fun _ _ => generates_get.bind fun c hc => ?_
  have hvar : (c.vars x).join = some i := by
    rw [← hi, ← hc]
    rfl
  refine (generates_require hvar).bind fun j hj => ?_
  subst hj
  refine (generates_slotOf (hT.integer x j hi)).bind fun p _ => (generates_number hT h hvars).bind fun v _ => ?_
  exact generates_emitInstr _

theorem generates_rowElements {es : List Expression} {ts : List Number} (h : pureNumbers es = some ts)
    (hvars : T.Binds (ts.flatMap Number.vars)) {i : ℕ} {prev : LLValue} {rs : List LLType}
    (hty : prev.ty = .row rs) (hlen : i+es.length ≤ rs.length) :
    (rowElements es i prev).Generates T fun _ => True := by
  induction es generalizing ts i prev with
  | nil => exact generates_pure trivial
  | cons e es ih =>
    simp only [pureNumbers, Option.bind_eq_bind, Option.bind_eq_some_iff, Option.ite_none_right_eq_some] at h
    obtain ⟨t, ht, ts', hts', -, h⟩ := h
    obtain rfl := Option.some.inj h
    rw [List.flatMap_cons, Ctx.Binds.append] at hvars
    rw [List.length_cons] at hlen
    have hnumber := generates_number hT ht hvars.1
    have hfield : ∀ probe value : LLValue, probe.ty = .i64 →
        (rowField probe value).Generates T fun _ => True := by
      intro probe value hprobe
      rw [rowField, hprobe, if_neg (by simp [LLType.isPointer])]
      exact generates_pure trivial
    have hinsert : ∀ field, (createInsertValue ⟨.rowLiteral, 0⟩ prev field i).Generates T
        fun v => v.ty = .row rs := by
      intro field
      have hat : prev.ty.fieldAt i = some (rs.get ⟨i, by omega⟩) := by
        rw [hty]
        exact List.getElem?_eq_getElem (by omega)
      exact (generates_require hat).bind fun _ _ =>
        (generates_emitResult _ _).mono fun v hv => hv.trans hty
    exact hnumber.bind fun probe hprobe => hnumber.bind fun value _ =>
      (hfield probe value hprobe).bind fun field _ => (hinsert field).bind fun v hv =>
        ih hts' hvars.2 hv (by omega)

/-- The value of a row literal behind the look at its type. -/
theorem completes_row {es : List Expression} {ts : List Number} (h : pureNumbers es = some ts)
    (hvars : T.Binds (ts.flatMap Number.vars)) (n : Note) : (Expression.rowLiteral n es).getValue.Completes
      (fun c => (es.map fun _ => .i64) ∈ c.rowTypes ∧ c.tables = T) fun _ c => c.tables = T := by
  rintro c ⟨hrow, hc⟩
  have htypes : typesIn c.typeEnv es = some (es.map fun _ => .i64) := by
    rw [← typesIn_numbers hT h hvars, ← hc]
    rfl
  obtain ⟨c₁, h₁⟩ := ((computes_getTypes_of fun e _ => e.computes_getType).ok_iff c _).mpr htypes
  have hemits := emitsRules.getTypes es h₁
  have h₂ : (requireRow (es.map fun _ => .i64)).run c₁ = .ok (.row (es.map fun _ => .i64), c₁) :=
    requireRow_eq_ok.mpr ⟨hemits.rowTypes_subset hrow, rfl, rfl⟩
  have helements : (rowElements es 0 ⟨.undef, .row (es.map fun _ => .i64)⟩).Generates T fun _ => True :=
    generates_rowElements hT h hvars rfl (by simp)
  obtain ⟨v, c', h₃, -, hc'⟩ := helements (hemits.tables_eq.trans hc)
  exact ⟨v, c', bind_eq_ok.mpr ⟨_, c₁, h₁, bind_eq_ok.mpr ⟨_, c₁, h₂, h₃⟩⟩, hc'⟩

omit hT in
/-- The look at its type makes the type of a row known. -/
theorem getType_registers {n : Note} {es : List Expression} {us : List LLType} {c c' : Ctx}
    (h : (Expression.rowLiteral n es).getType.run c = .ok (.row us, c')) : us ∈ c'.rowTypes := by
  obtain ⟨ts, c₁, -, hrow⟩ := bind_eq_ok.mp h
  obtain ⟨_, c₂, hmodify, hret⟩ := bind_eq_ok.mp hrow
  obtain ⟨hts, rfl⟩ := pure_eq_ok.mp hret
  obtain rfl := LLType.row.inj hts
  obtain rfl := modify_eq_ok.mp hmodify
  split_ifs with hmem
  · exact hmem
  · exact List.mem_cons_self

theorem generates_emitCode {es : List Expression} {ts : List Number} (h : pureNumbers es = some ts)
    (hvars : T.Binds (ts.flatMap Number.vars)) (n : Note) {i : ℕ} (hi : i < T.slots.length) :
    (emitCode (some i) (.rowLiteral n es)).Generates T fun _ => True := by
  have htype : (Expression.rowLiteral n es).typeIn T.typeEnv = some (.row (es.map fun _ => .i64)) := by
    simp [Expression.typeIn, typesIn_numbers hT h hvars]
  have hgetType : (Expression.rowLiteral n es).getType.Completes (fun c => c.tables = T) fun t c =>
      t = .row (es.map fun _ => .i64) ∧ (es.map fun _ => .i64) ∈ c.rowTypes ∧ c.tables = T := by
    intro c hc
    obtain ⟨t, c', hrun, rfl, hc'⟩ := generates_getType htype hc
    exact ⟨_, c', hrun, rfl, getType_registers hrun, hc'⟩
  have hrest : ∀ v : LLValue, ∀ fields : List LLType, (do
      let stack ← slotOf (some i)
      createStore ⟨.emit, 0⟩ v stack
      let src ← createBitCast stack (.ptr .i8)
      let _ ← createCall ⟨.emit, 0⟩ (text "__emit_func")
        [hostPtr, src, int64 ((fields.map LLType.primitiveBytes).sum : ℕ)]
      Pure.pure () : Gen Unit).Generates T fun _ => True := by
    intro v fields
    refine (generates_slotOf (List.getElem?_eq_getElem hi)).bind fun stack _ => ?_
    exact (generates_emitInstr _).bind fun _ _ => (generates_createBitCast _ _).bind fun src _ =>
      (generates_createCall rfl _ _).bind fun _ _ => generates_pure trivial
  refine hgetType.bind fun t => ?_
  rintro c ⟨rfl, hrow, hc⟩
  obtain ⟨v, c₁, h₁, hc₁⟩ := completes_row hT h hvars n ⟨hrow, hc⟩
  obtain ⟨u, c', h₂, hc'⟩ := hrest v (es.map fun _ => .i64) hc₁
  exact ⟨u, c', bind_eq_ok.mpr ⟨_, c, rfl, bind_eq_ok.mpr ⟨v, c₁, h₁, h₂⟩⟩, hc'⟩

omit hT in
theorem generates_ifCode {cond : Gen LLValue} {ts fs : Gen Unit} (hc : cond.Generates T fun _ => True)
    (ht : ts.Generates T fun _ => True) (hf : fs.Generates T fun _ => True) :
    (ifCode cond ts fs).Generates T fun _ => True := by
  refine generates_createBlock.bind fun b _ => generates_createBlock.bind fun b' _ => ?_
  refine generates_createBlock.bind fun fin _ => hc.bind fun v _ => (generates_toI1 v).bind fun w _ => ?_
  refine (generates_emitInstr _).bind fun _ _ => (generates_setInsertPoint _).bind fun _ _ => ?_
  refine ht.bind fun _ _ => (generates_emitInstr _).bind fun _ _ => (generates_setInsertPoint _).bind fun _ _ => ?_
  exact hf.bind fun _ _ => (generates_emitInstr _).bind fun _ _ => generates_setInsertPoint _

omit hT in
theorem generates_forCode {init blk : Gen Unit} {c e : Expression}
    (hi : init.Generates T fun _ => True) (hc : c.getValue.Generates T fun _ => True)
    (he : (e.getValue >>= fun _ => (Pure.pure () : Gen Unit)).Generates T fun _ => True)
    (hb : blk.Generates T fun _ => True) :
    (forCode init (.to c) (.to e) blk).Generates T fun _ => True := by
  have hcond : ∀ body finish, (loopCondition (.to c) body finish).Generates T fun _ => True :=
    fun body finish => hc.bind fun v _ => generates_emitInstr _
  have hloop : ∀ l, (enterLoop l).Generates T fun _ => True := fun l _ hc => ⟨(), _, rfl, trivial, hc⟩
  have hexit : exitLoop.Generates T fun _ => True := fun _ hc => ⟨(), _, rfl, trivial, hc⟩
  refine hi.bind fun _ _ => generates_createBlock.bind fun b _ => generates_createBlock.bind fun b' _ => ?_
  refine generates_createBlock.bind fun b'' _ => generates_createBlock.bind fun fin _ => ?_
  refine (hloop _).bind fun _ _ => (generates_emitInstr _).bind fun _ _ => ?_
  refine (generates_setInsertPoint _).bind fun _ _ => (hcond _ _).bind fun _ _ => ?_
  refine (generates_setInsertPoint _).bind fun _ _ => hb.bind fun _ _ => ?_
  refine (generates_emitInstr _).bind fun _ _ => (generates_setInsertPoint _).bind fun _ _ => ?_
  refine Gen.Generates.bind he fun _ _ => (generates_emitInstr _).bind fun _ _ => ?_
  exact (generates_setInsertPoint _).bind fun _ _ => hexit

end

end Reir
