import Reir.Erasure
import Reir.Parser

/-! What the analysis visits. Code generation evaluates every element of an array literal and the
target of a pointer, but the analysis goes into the first element only and into no target, so the
member references there keep an offset that was never set. -/
namespace Reir
open Gen

def Ptr.expressions : Ptr Expression → List Expression
  | .to e => [e]
  | _ => []

mutual

/-- The expressions of a statement and of what it contains. -/
def Statement.expressions : Statement → List Expression
  | .block ss => expressionsAll ss
  | .transaction _ ss => expressionsAll ss
  | .forStmt init cond every blk =>
    expressionsInit init ++ (cond.expressions ++ (every.expressions ++ expressionsAll blk))
  | .emit _ e => [e]
  | .insert _ e _ => [e]
  | .scan _ _ blk _ => expressionsAll blk
  | .letStmt _ e _ => [e]
  | .ifStmt cond ts fs => cond :: (expressionsAll ts ++ expressionsElse fs)
  | .exprStatement _ e => [e]
  | .define _ _ => []
  | .jump _ => []
  | .defineTuple _ _ => []

def expressionsInit : Ptr Statement → List Expression
  | .to s => s.expressions
  | _ => []

def expressionsElse : Option (List Statement) → List Expression
  | some ss => expressionsAll ss
  | none => []

def expressionsAll : List Statement → List Expression
  | [] => []
  | s :: ss => s.expressions ++ expressionsAll ss

end

/-- The declared type of a `Let` is used for a row literal only; an array literal enters the type
of its elements. -/
def entersLet : Expression → Option NodeType → Bool
  | .rowLiteral _ _, some _ => true
  | .arrayLiteral _ _, _ => true
  | _, _ => false

mutual

/-- The names under which the analysis of a statement enters types. -/
def Statement.entered : Statement → List Text
  | .block ss => enteredAll ss
  | .transaction _ ss => enteredAll ss
  | .define _ name => [name]
  | .forStmt init _ _ blk => enteredInit init ++ enteredAll blk
  | .scan _ _ blk _ => enteredAll blk
  | .letStmt name e type => if entersLet e type then [name] else []
  | .defineTuple name _ => [name]
  | .ifStmt _ ts fs => enteredAll ts ++ enteredElse fs
  | .jump _ => []
  | .emit _ _ => []
  | .insert _ _ _ => []
  | .exprStatement _ _ => []

def enteredInit : Ptr Statement → List Text
  | .to s => s.entered
  | _ => []

def enteredElse : Option (List Statement) → List Text
  | some ss => enteredAll ss
  | none => []

def enteredAll : List Statement → List Text
  | [] => []
  | s :: ss => s.entered ++ enteredAll ss

end

def NodeType.isPrimary : NodeType → Bool
  | .primary _ => true
  | _ => false

/-- What becomes of the entries that are in the table of types: those of the given names are
replaced by tuple and array types, all others stay. -/
def Enters (names : List Text) (c c' : Ctx) : Prop :=
  ∀ x, c.analyzeTypes x ≠ none → if x ∈ names
    then ∃ t, c'.analyzeTypes x = some (some t) ∧ t.isPrimary = false
    else c'.analyzeTypes x = c.analyzeTypes x

section
variable {ms ns : List Text} {c c₁ c₂ : Ctx}

theorem Enters.ne_none (h : Enters ns c c₁) {x : Text} (hx : c.analyzeTypes x ≠ none) :
    c₁.analyzeTypes x ≠ none := by
  have hx' := h x hx
  split_ifs at hx' with hmem
  · obtain ⟨t, ht, -⟩ := hx'
    simp [ht]
  · rwa [hx']

theorem Enters.trans (h : Enters ms c c₁) (k : Enters ns c₁ c₂) : Enters (ms ++ ns) c c₂ := by
  intro x hx
  have h₁ := h x hx
  have h₂ := k x (h.ne_none hx)
  by_cases hn : x ∈ ns
  · rw [if_pos hn] at h₂
    rwa [if_pos (List.mem_append_right ms hn)]
  · rw [if_neg hn] at h₂
    by_cases hm : x ∈ ms
    · rw [if_pos hm] at h₁
      rwa [if_pos (List.mem_append_left ns hm), h₂]
    · rw [if_neg hm] at h₁
      rw [if_neg (by simp [hm, hn]), h₂, h₁]

theorem enters_of_eq (h : c₁.analyzeTypes = c.analyzeTypes) : Enters [] c c₁ := by
  intro x _
  rw [if_neg (by simp), h]

theorem enters_setAnalyzeType (c : Ctx) (x : Text) {t : NodeType} (h : t.isPrimary = false) :
    Enters [x] c (c.setAnalyzeType x (some t)) := by
  intro y _
  by_cases hy : y = x
  · subst hy
    rw [if_pos (List.mem_singleton_self y)]
    exact ⟨t, by simp [Ctx.setAnalyzeType], h⟩
  · rw [if_neg (by simpa using hy)]
    simp [Ctx.setAnalyzeType, hy]

end

def Gen.Enters {α : Type} (p : Gen α) (names : List Text) : Prop :=
  ∀ ⦃c a c'⦄, p.run c = .ok (a, c') → Reir.Enters names c c'

/-- The analysis of an expression keeps every entry; a null pointer is entered for a name that has
none. -/
theorem entersRules : TypingRules fun p => p.Enters [] where
  pure := by
    intro α a c b c' h
    obtain ⟨-, rfl⟩ := pure_eq_ok.mp h
    exact enters_of_eq rfl
  fail := by
    intro α e c b c' h
    exact absurd h (by simp)
  get := by
    intro c b c' h
    obtain ⟨-, rfl⟩ := get_eq_ok.mp h
    exact enters_of_eq rfl
  require := by
    intro α e o c b c' h
    obtain ⟨-, rfl⟩ := require_eq_ok.mp h
    exact enters_of_eq rfl
  bind := by
    intro α β p f hp hf c b c' h
    obtain ⟨a, c₁, h₁, h₂⟩ := bind_eq_ok.mp h
    exact (hp h₁).trans (hf a h₂)
  lookupAnalyzeType := by
    intro x c t c' h
    obtain ⟨c₁, c₂, hget, h⟩ := bind_eq_ok.mp h
    obtain ⟨rfl, rfl⟩ := get_eq_ok.mp hget
    split at h
    case h_1 =>
      obtain ⟨-, rfl⟩ := pure_eq_ok.mp h
      exact enters_of_eq rfl
    case h_2 hx =>
      obtain ⟨_, c₂, h₁, h₂⟩ := bind_eq_ok.mp h
      obtain rfl := modify_eq_ok.mp h₁
      obtain ⟨-, rfl⟩ := pure_eq_ok.mp h₂
      intro y hy
      have hne : y ≠ x := by
        rintro rfl
        exact hy hx
      rw [if_neg (by simp)]
      simp [Ctx.setAnalyzeType, hne]

/-- The expression is analysed when some of the names have been entered. -/
def AnalysedIn (names : List Text) (c : Ctx) (e e' : Expression) : Prop :=
  ∃ ns c₁ c₂, ns ⊆ names ∧ Enters ns c c₁ ∧ e.analyze.run c₁ = .ok (e', c₂)

/-- What the analysis of some expressions and of what surrounds them does. -/
structure Analyses (names : List Text) (es es' : List Expression) (c c' : Ctx) : Prop where
  enters : Enters names c c'
  each : List.Forall₂ (AnalysedIn names c) es es'

section
variable {ms ns : List Text} {es es' fs fs' : List Expression} {c c₁ c₂ : Ctx}

theorem AnalysedIn.mono {e e' : Expression} (h : AnalysedIn ms c e e') (hsub : ms ⊆ ns) :
    AnalysedIn ns c e e' := by
  obtain ⟨ks, c₁, c₂, hks, henters, hrun⟩ := h
  exact ⟨ks, c₁, c₂, List.Subset.trans hks hsub, henters, hrun⟩

theorem AnalysedIn.after {e e' : Expression} (h : AnalysedIn ns c₁ e e') (hk : Enters ms c c₁) :
    AnalysedIn (ms ++ ns) c e e' := by
  obtain ⟨ks, c₂, c₃, hks, henters, hrun⟩ := h
  refine ⟨ms ++ ks, c₂, c₃, ?_, hk.trans henters, hrun⟩
  exact List.append_subset.mpr ⟨List.subset_append_left ms ns, List.subset_append_of_subset_right ms hks⟩

theorem Analyses.trans (h : Analyses ms es es' c c₁) (k : Analyses ns fs fs' c₁ c₂) :
    Analyses (ms ++ ns) (es ++ fs) (es' ++ fs') c c₂ where
  enters := h.enters.trans k.enters
  each := by
    refine List.rel_append ?_ ?_
    · exact h.each.imp fun _ _ he => he.mono (List.subset_append_left ms ns)
    · exact k.each.imp fun _ _ he => he.after h.enters

theorem Enters.analyses (h : Enters ns c c₁) : Analyses ns [] [] c c₁ := ⟨h, .nil⟩

theorem Expression.analyses {e e' : Expression} (h : e.analyze.run c = .ok (e', c₁)) :
    Analyses [] [e] [e'] c c₁ where
  enters := entersRules.expression e h
  each := .cons ⟨[], c, c₁, List.Subset.refl _, enters_of_eq rfl, h⟩ .nil

end

theorem entersTuple {t t' : NodeType} {c c' : Ctx} (h : t.analyzeTuple.run c = .ok (t', c')) :
    Enters [] c c' ∧ t'.isPrimary = false := by
  refine ⟨entersRules.analyzeTuple t h, ?_⟩
  unfold NodeType.analyzeTuple at h
  split at h
  · obtain ⟨ts, c₁, -, hret⟩ := bind_eq_ok.mp h
    obtain ⟨rfl, -⟩ := pure_eq_ok.mp hret
    rfl
  · exact absurd h (by simp)

/-- The analysis does not change the form of an expression. -/
theorem entersLet_analyze {e e' : Expression} {c c' : Ctx} (h : e.analyze.run c = .ok (e', c'))
    (type : Option NodeType) : entersLet e' type = entersLet e type := by
  have herase : ∀ e : Expression, entersLet e.erase type = entersLet e type := by
    intro e
    cases e <;> cases type <;> rfl
  rw [← herase e', e.analyze_erase h, herase]

theorem enters_analyzeLet {name : Text} {e : Expression} {type type' : Option NodeType} {c c' : Ctx}
    (h : (analyzeLet name e type).run c = .ok (type', c')) :
    Enters (if entersLet e type then [name] else []) c c' := by
  unfold analyzeLet at h
  split at h
  case h_1 =>
    obtain ⟨_, c₁, h₁, h₂⟩ := bind_eq_ok.mp h
    obtain rfl := modify_eq_ok.mp h₁
    obtain ⟨-, rfl⟩ := pure_eq_ok.mp h₂
    exact enters_of_eq rfl
  case h_2 n es t =>
    obtain ⟨t', c₁, h₁, h⟩ := bind_eq_ok.mp h
    obtain ⟨_, c₂, h₂, h₃⟩ := bind_eq_ok.mp h
    obtain rfl := modify_eq_ok.mp h₂
    obtain ⟨-, rfl⟩ := pure_eq_ok.mp h₃
    obtain ⟨henters, ht⟩ := entersTuple h₁
    exact henters.trans (enters_setAnalyzeType c₁ name ht)
  case h_3 n es type =>
    obtain ⟨first, c₁, h₁, h⟩ := bind_eq_ok.mp h
    obtain ⟨t, c₂, h₂, h⟩ := bind_eq_ok.mp h
    obtain ⟨_, c₃, h₃, h₄⟩ := bind_eq_ok.mp h
    obtain ⟨-, rfl⟩ := require_eq_ok.mp h₁
    obtain ⟨-, rfl⟩ := require_eq_ok.mp h₂
    obtain rfl := modify_eq_ok.mp h₃
    obtain ⟨-, rfl⟩ := pure_eq_ok.mp h₄
    exact enters_setAnalyzeType c name (t := .array t.id) rfl
  case h_4 hrow harray =>
    obtain ⟨_, c₁, h₁, h₂⟩ := bind_eq_ok.mp h
    obtain rfl := modify_eq_ok.mp h₁
    obtain ⟨-, rfl⟩ := pure_eq_ok.mp h₂
    have hlet : entersLet e none = false := by cases e <;> simp_all [entersLet]
    rw [hlet]
    exact enters_of_eq rfl
  case h_5 => exact absurd h (by simp)

section
variable {c c' : Ctx}

theorem analyses_expr {p p' : Ptr Expression} (h : p.analyzeExpr.run c = .ok (p', c')) :
    Analyses [] p.expressions p'.expressions c c' := by
  cases p with
  | null =>
    obtain ⟨rfl, rfl⟩ := pure_eq_ok.mp h
    exact (enters_of_eq rfl).analyses
  | uninit => exact absurd h (by simp [Ptr.analyzeExpr])
  | «to» e =>
    obtain ⟨e', c₁, he, hret⟩ := bind_eq_ok.mp h
    obtain ⟨rfl, rfl⟩ := pure_eq_ok.mp hret
    exact Expression.analyses he

theorem analyses_all_of {ss ss' : List Statement}
    (hs : ∀ s ∈ ss, ∀ ⦃c s' c'⦄, s.analyze.run c = .ok (s', c') →
      Analyses s.entered s.expressions s'.expressions c c')
    (h : (analyzeAll ss).run c = .ok (ss', c')) :
    Analyses (enteredAll ss) (expressionsAll ss) (expressionsAll ss') c c' := by
  induction ss generalizing c ss' with
  | nil =>
    obtain ⟨rfl, rfl⟩ := pure_eq_ok.mp h
    exact (enters_of_eq rfl).analyses
  | cons s ss ih =>
    rw [List.forall_mem_cons] at hs
    obtain ⟨s', c₁, hhead, h⟩ := bind_eq_ok.mp h
    obtain ⟨ss₁, c₂, htail, hret⟩ := bind_eq_ok.mp h
    obtain ⟨rfl, rfl⟩ := pure_eq_ok.mp hret
    exact (hs.1 hhead).trans (ih hs.2 htail)

/-- Every expression of a statement is analysed. -/
theorem Statement.analyses (s : Statement) : ∀ ⦃c s' c'⦄, s.analyze.run c = .ok (s', c') →
    Analyses s.entered s.expressions s'.expressions c c' := by
  induction s using Statement.induction with
  | block ss hss =>
    intro c s' c' h
    obtain ⟨ss', c₁, hall, hret⟩ := bind_eq_ok.mp h
    obtain ⟨rfl, rfl⟩ := pure_eq_ok.mp hret
    exact analyses_all_of hss hall
  | transaction isolation ss hss =>
    intro c s' c' h
    obtain ⟨ss', c₁, hall, hret⟩ := bind_eq_ok.mp h
    obtain ⟨rfl, rfl⟩ := pure_eq_ok.mp hret
    exact analyses_all_of hss hall
  | define schema name =>
    intro c s' c' h
    obtain ⟨t, c₁, h₁, h⟩ := bind_eq_ok.mp h
    obtain ⟨t', c₂, h₂, h⟩ := bind_eq_ok.mp h
    obtain ⟨_, c₃, h₃, hret⟩ := bind_eq_ok.mp h
    obtain ⟨-, rfl⟩ := require_eq_ok.mp h₁
    obtain rfl := modify_eq_ok.mp h₃
    obtain ⟨rfl, rfl⟩ := pure_eq_ok.mp hret
    obtain ⟨henters, ht⟩ := entersTuple h₂
    exact (henters.trans (enters_setAnalyzeType c₂ name ht)).analyses
  | forStmt init cond every blk hinit hblk =>
    intro c s' c' h
    obtain ⟨init', c₁, h₁, h⟩ := bind_eq_ok.mp h
    obtain ⟨cond', c₂, h₂, h⟩ := bind_eq_ok.mp h
    obtain ⟨every', c₃, h₃, h⟩ := bind_eq_ok.mp h
    obtain ⟨blk', c₄, h₄, hret⟩ := bind_eq_ok.mp h
    obtain ⟨rfl, rfl⟩ := pure_eq_ok.mp hret
    have hinit' : Analyses (enteredInit init) (expressionsInit init) (expressionsInit init') c c₁ := by
      cases init with
      | null =>
        obtain ⟨rfl, rfl⟩ := pure_eq_ok.mp h₁
        exact (enters_of_eq rfl).analyses
      | uninit => exact absurd h₁ (by simp [analyzeInit])
      | «to» s =>
        obtain ⟨s', c₂, hs, hret⟩ := bind_eq_ok.mp h₁
        obtain ⟨rfl, rfl⟩ := pure_eq_ok.mp hret
        exact hinit s rfl hs
    exact hinit'.trans ((analyses_expr h₂).trans ((analyses_expr h₃).trans (analyses_all_of hblk h₄)))
  | jump t =>
    intro c s' c' h
    obtain ⟨rfl, rfl⟩ := pure_eq_ok.mp h
    exact (enters_of_eq rfl).analyses
  | emit stack e =>
    intro c s' c' h
    obtain ⟨e', c₁, he, hret⟩ := bind_eq_ok.mp h
    obtain ⟨rfl, rfl⟩ := pure_eq_ok.mp hret
    exact Expression.analyses he
  | insert table e frame =>
    intro c s' c' h
    obtain ⟨e', c₁, he, hret⟩ := bind_eq_ok.mp h
    obtain ⟨rfl, rfl⟩ := pure_eq_ok.mp hret
    exact Expression.analyses he
  | scan table rowName blk frame hblk =>
    intro c s' c' h
    obtain ⟨t, c₁, h₁, h⟩ := bind_eq_ok.mp h
    obtain ⟨_, c₂, h₂, h⟩ := bind_eq_ok.mp h
    obtain ⟨blk', c₃, h₃, hret⟩ := bind_eq_ok.mp h
    obtain rfl := modify_eq_ok.mp h₂
    obtain ⟨rfl, rfl⟩ := pure_eq_ok.mp hret
    have hlookup := entersRules.lookupAnalyzeType table h₁
    have hvar : Enters [] c₁ (c₁.setVarType rowName t) := enters_of_eq rfl
    exact (hlookup.trans hvar).analyses.trans (analyses_all_of hblk h₃)
  | letStmt name e type =>
    intro c s' c' h
    obtain ⟨e', c₁, he, h⟩ := bind_eq_ok.mp h
    obtain ⟨type', c₂, htype, hret⟩ := bind_eq_ok.mp h
    obtain ⟨rfl, rfl⟩ := pure_eq_ok.mp hret
    have henters := enters_analyzeLet htype
    rw [entersLet_analyze he] at henters
    exact (Expression.analyses he).trans henters.analyses
  | defineTuple name type =>
    intro c s' c' h
    obtain ⟨t, c₁, h₁, h⟩ := bind_eq_ok.mp h
    obtain ⟨_, c₂, h₂, hret⟩ := bind_eq_ok.mp h
    obtain rfl := modify_eq_ok.mp h₂
    obtain ⟨rfl, rfl⟩ := pure_eq_ok.mp hret
    obtain ⟨henters, ht⟩ := entersTuple h₁
    exact (henters.trans (enters_setAnalyzeType c₁ name ht)).analyses
  | ifStmt cond ts fs hts hfs =>
    intro c s' c' h
    obtain ⟨cond', c₁, h₁, h⟩ := bind_eq_ok.mp h
    obtain ⟨ts', c₂, h₂, h⟩ := bind_eq_ok.mp h
    obtain ⟨fs', c₃, h₃, hret⟩ := bind_eq_ok.mp h
    obtain ⟨rfl, rfl⟩ := pure_eq_ok.mp hret
    have helse : Analyses (enteredElse fs) (expressionsElse fs) (expressionsElse fs') c₂ c₃ := by
      cases fs with
      | none =>
        obtain ⟨rfl, rfl⟩ := pure_eq_ok.mp h₃
        exact (enters_of_eq rfl).analyses
      | some fs =>
        obtain ⟨ss', c₃, hall, hret⟩ := bind_eq_ok.mp h₃
        obtain ⟨rfl, rfl⟩ := pure_eq_ok.mp hret
        exact analyses_all_of (hfs fs rfl) hall
    exact (Expression.analyses h₁).trans ((analyses_all_of hts h₂).trans helse)
  | exprStatement stack e =>
    intro c s' c' h
    obtain ⟨e', c₁, he, hret⟩ := bind_eq_ok.mp h
    obtain ⟨rfl, rfl⟩ := pure_eq_ok.mp hret
    exact Expression.analyses he

theorem analyses_all {ss ss' : List Statement} (h : (analyzeAll ss).run c = .ok (ss', c')) :
    Analyses (enteredAll ss) (expressionsAll ss) (expressionsAll ss') c c' :=
  analyses_all_of (fun s _ => s.analyses) h

end

/-- The forms with a `get_ref` of their own. -/
def Expression.hasAddress : Expression → Bool
  | .variable _ _ => true
  | .arrayReference _ _ _ => true
  | .memberReference _ _ _ _ => true
  | _ => false

mutual

/-- The expressions inside of an expression, with itself: all of them, or those whose type, value or
address is asked for when its value is generated. The callee of a call is only looked at for its
name, and only some forms of a target have an address; `each_value` goes on to the parent of a
member reference. -/
def Expression.parts (all : Bool) : Expression → List Expression
  | .primary n v => [.primary n v]
  | .binary n l op r => .binary n l op r :: (l.parts all ++ r.parts all)
  | .pointerOf n t => .pointerOf n t :: t.parts all
  | .rowLiteral n es => .rowLiteral n es :: partsAll all es
  | .arrayLiteral n es => .arrayLiteral n es :: partsAll all es
  | .variable n x => [.variable n x]
  | .functionCall n p as =>
    .functionCall n p as :: ((if all then p.parts all else []) ++ partsAll all as)
  | .arrayReference n p i => .arrayReference n p i :: (partsParent all p ++ i.parts all)
  | .memberReference n p x o => .memberReference n p x o :: p.parts all
  | .assign n t v =>
    .assign n t v :: ((if all || t.hasAddress then t.parts all else []) ++ v.parts all)

def partsParent (all : Bool) : Option Expression → List Expression
  | none => []
  | some p => p.parts all

def partsAll (all : Bool) : List Expression → List Expression
  | [] => []
  | e :: es => e.parts all ++ partsAll all es

end

/-- None of the expressions is of a kind. -/
def clearOf (kind : Expression → Bool) (es : List Expression) : Bool := es.all fun e => !kind e

mutual

/-- No part of a kind is skipped by the analysis: none is in the target of a pointer, behind the first
element of an array literal or in the callee of a call. -/
def Expression.covered (all : Bool) (kind : Expression → Bool) : Expression → Bool
  | .primary _ _ => true
  | .binary _ l _ r => l.covered all kind && r.covered all kind
  | .pointerOf _ t => clearOf kind (t.parts all)
  | .rowLiteral _ es => coveredAll all kind es
  | .arrayLiteral _ [] => true
  | .arrayLiteral _ (e :: es) => e.covered all kind && clearOf kind (partsAll all es)
  | .variable _ _ => true
  | .functionCall _ p as => (!all || clearOf kind (p.parts all)) && coveredAll all kind as
  | .arrayReference _ p i => coveredParent all kind p && i.covered all kind
  | .memberReference _ p _ _ => p.covered all kind
  | .assign _ t v => (!(all || t.hasAddress) || t.covered all kind) && v.covered all kind

def coveredParent (all : Bool) (kind : Expression → Bool) : Option Expression → Bool
  | none => true
  | some p => p.covered all kind

def coveredAll (all : Bool) (kind : Expression → Bool) : List Expression → Bool
  | [] => true
  | e :: es => e.covered all kind && coveredAll all kind es

end

attribute [local simp] Expression.parts partsAll Expression.covered coveredAll

theorem Expression.hasAddress_erase (e : Expression) : e.erase.hasAddress = e.hasAddress := by
  cases e <;> rfl

/-- The analysis keeps the form of an expression. -/
theorem Expression.hasAddress_analyze {e e' : Expression} {c c' : Ctx}
    (h : e.analyze.run c = .ok (e', c')) : e'.hasAddress = e.hasAddress := by
  rw [← e'.hasAddress_erase, e.analyze_erase h, e.hasAddress_erase]

theorem eraseList_cons {e : Expression} {es : List Expression} :
    eraseList (e :: es) = e :: es ↔ e.erase = e ∧ eraseList es = es := by
  simp [eraseList]

theorem partsAll_erased_of {all : Bool} {es : List Expression}
    (h : ∀ e ∈ es, ∀ m ∈ e.erase.parts all, m.erase = m) :
    ∀ m ∈ partsAll all (eraseList es), m.erase = m := by
  induction es with
  | nil => simp [eraseList, partsAll]
  | cons e es ih =>
    rw [List.forall_mem_cons] at h
    simp only [eraseList, partsAll, List.forall_mem_append]
    exact ⟨h.1, ih h.2⟩

theorem eraseList_erase_of {es : List Expression} (h : ∀ e ∈ es, e.erase.erase = e.erase) :
    eraseList (eraseList es) = eraseList es := by
  induction es with
  | nil => rfl
  | cons e es ih =>
    rw [List.forall_mem_cons] at h
    simp [eraseList, h.1, ih h.2]

theorem Expression.erase_erase (e : Expression) : e.erase.erase = e.erase := by
  induction e using Expression.induction with
  | primary n v => rfl
  | binary n l op r hl hr => simp [erase, hl, hr, Note.erase]
  | pointerOf n t ht => simp [erase, ht, Note.erase]
  | rowLiteral n es hes => simp [erase, eraseList_erase_of hes, Note.erase]
  | arrayLiteral n es hes => simp [erase, eraseList_erase_of hes, Note.erase]
  | variableRef n x => rfl
  | functionCall n p as hp has => simp [erase, hp, eraseList_erase_of has, Note.erase]
  | arrayReference n p i hp hi =>
    cases p with
    | none => simp [erase, eraseParent, hi, Note.erase]
    | some p => simp [erase, eraseParent, hp p rfl, hi, Note.erase]
  | memberReference n p x o hp => simp [erase, hp, Note.erase]
  | assign n t v ht hv => simp [erase, ht, hv, Note.erase]

/-- The parts of an expression without records have none. -/
theorem Expression.parts_erased (all : Bool) (e : Expression) :
    ∀ m ∈ e.erase.parts all, m.erase = m := by
  induction e using Expression.induction with
  | primary n v => simp [erase, parts, Note.erase]
  | binary n l op r hl hr =>
    have hself := (binary n l op r).erase_erase
    simp only [erase, parts, List.forall_mem_cons, List.forall_mem_append] at hself ⊢
    exact ⟨hself, hl, hr⟩
  | pointerOf n t ht =>
    have hself := (pointerOf n t).erase_erase
    simp only [erase, parts, List.forall_mem_cons] at hself ⊢
    exact ⟨hself, ht⟩
  | rowLiteral n es hes =>
    have hself := (rowLiteral n es).erase_erase
    simp only [erase, parts, List.forall_mem_cons] at hself ⊢
    exact ⟨hself, partsAll_erased_of hes⟩
  | arrayLiteral n es hes =>
    have hself := (arrayLiteral n es).erase_erase
    simp only [erase, parts, List.forall_mem_cons] at hself ⊢
    exact ⟨hself, partsAll_erased_of hes⟩
  | variableRef n x => simp [erase, parts, Note.erase]
  | functionCall n p as hp has =>
    have hself := (functionCall n p as).erase_erase
    have hcallee : ∀ m ∈ if all then p.erase.parts all else [], m.erase = m := by
      split_ifs
      · exact hp
      · simp
    simp only [erase, parts, List.forall_mem_cons, List.forall_mem_append] at hself ⊢
    exact ⟨hself, hcallee, partsAll_erased_of has⟩
  | arrayReference n p i hp hi =>
    have hself := (arrayReference n p i).erase_erase
    have hparent : ∀ m ∈ partsParent all (eraseParent p), m.erase = m := by
      cases p with
      | none => simp [eraseParent, partsParent]
      | some p => exact hp p rfl
    simp only [erase, parts, List.forall_mem_cons, List.forall_mem_append] at hself ⊢
    exact ⟨hself, hparent, hi⟩
  | memberReference n p x o hp =>
    have hself := (memberReference n p x o).erase_erase
    simp only [erase, parts, List.forall_mem_cons] at hself ⊢
    exact ⟨hself, hp⟩
  | assign n t v ht hv =>
    have hself := (assign n t v).erase_erase
    have htarget : ∀ m ∈ if all || t.erase.hasAddress then t.erase.parts all else [], m.erase = m := by
      split_ifs
      · exact ht
      · simp
    simp only [erase, parts, List.forall_mem_cons, List.forall_mem_append] at hself ⊢
    exact ⟨hself, htarget, hv⟩

/-- A property of nodes that an analysed expression has in a context of some kind, and that an
expression without records has if it is not of a kind. -/
structure NodeRules (J : Ctx → Prop) (kind : Expression → Bool) (L : Expression → Prop) : Prop where
  keeps : ∀ (e : Expression) {e' c c'}, e.analyze.run c = .ok (e', c') → J c → J c'
  lookup : ∀ (x : Text) {t c c'}, (lookupAnalyzeType x).run c = .ok (t, c') → J c → J c'
  analysed : ∀ {e e' : Expression} {c c'}, J c → e.analyze.run c = .ok (e', c') → L e'
  erased : ∀ e : Expression, e.erase = e → (L e ↔ kind e = false)

namespace NodeRules
variable {J : Ctx → Prop} {kind : Expression → Bool} {L : Expression → Prop} (R : NodeRules J kind L)
  {all : Bool} {c c' : Ctx}
include R

/-- What the analysis leaves alone has the property if nothing of the kind is there. -/
theorem clearOf_iff {es : List Expression} (h : ∀ e ∈ es, e.erase = e) :
    (∀ e ∈ es, L e) ↔ clearOf kind es = true := by
  simp only [clearOf, List.all_eq_true, Bool.not_eq_true']
  constructor
  · intro hes e he
    exact (R.erased e (h e he)).mp (hes e he)
  · intro hes e he
    exact (R.erased e (h e he)).mpr (hes e he)

theorem clearOf_parts {e : Expression} (h : e.erase = e) :
    (∀ m ∈ e.parts all, L m) ↔ clearOf kind (e.parts all) = true := by
  refine R.clearOf_iff ?_
  have hparts := e.parts_erased all
  rwa [h] at hparts

theorem clearOf_partsAll {es : List Expression} (h : eraseList es = es) :
    (∀ m ∈ partsAll all es, L m) ↔ clearOf kind (partsAll all es) = true := by
  refine R.clearOf_iff ?_
  have hparts := @partsAll_erased_of all es fun e _ => e.parts_erased all
  rwa [h] at hparts

theorem elements_of {es es' : List Expression} (hes : ∀ e ∈ es, ∀ ⦃c e' c'⦄, J c →
      e.analyze.run c = .ok (e', c') → e.erase = e →
      ((∀ m ∈ e'.parts all, L m) ↔ e.covered all kind = true)) (hJ : J c)
    (h : (analyzeElements es).run c = .ok (es', c')) (herase : eraseList es = es) :
    (∀ m ∈ partsAll all es', L m) ↔ coveredAll all kind es = true := by
  induction es generalizing c es' with
  | nil =>
    obtain ⟨rfl, -⟩ := pure_eq_ok.mp h
    simp [partsAll, coveredAll]
  | cons e es ih =>
    rw [List.forall_mem_cons] at hes
    obtain ⟨he, herase⟩ := eraseList_cons.mp herase
    obtain ⟨e', c₁, h₁, h⟩ := bind_eq_ok.mp h
    obtain ⟨_, c₂, h₂, h⟩ := bind_eq_ok.mp h
    obtain ⟨es₁, c₃, h₃, hret⟩ := bind_eq_ok.mp h
    obtain ⟨rfl, rfl⟩ := pure_eq_ok.mp hret
    obtain ⟨-, rfl⟩ := require_eq_ok.mp h₂
    have hhead := hes.1 hJ h₁ he
    have htail := ih hes.2 (R.keeps e h₁ hJ) h₃ herase
    simp only [partsAll, List.forall_mem_append, coveredAll, Bool.and_eq_true, hhead, htail]

theorem args_of {es es' : List Expression} (hes : ∀ e ∈ es, ∀ ⦃c e' c'⦄, J c →
      e.analyze.run c = .ok (e', c') → e.erase = e →
      ((∀ m ∈ e'.parts all, L m) ↔ e.covered all kind = true)) (hJ : J c)
    (h : (analyzeArgs es).run c = .ok (es', c')) (herase : eraseList es = es) :
    (∀ m ∈ partsAll all es', L m) ↔ coveredAll all kind es = true := by
  induction es generalizing c es' with
  | nil =>
    obtain ⟨rfl, -⟩ := pure_eq_ok.mp h
    simp [partsAll, coveredAll]
  | cons e es ih =>
    rw [List.forall_mem_cons] at hes
    obtain ⟨he, herase⟩ := eraseList_cons.mp herase
    obtain ⟨e', c₁, h₁, h⟩ := bind_eq_ok.mp h
    obtain ⟨es₁, c₂, h₂, hret⟩ := bind_eq_ok.mp h
    obtain ⟨rfl, rfl⟩ := pure_eq_ok.mp hret
    have hhead := hes.1 hJ h₁ he
    have htail := ih hes.2 (R.keeps e h₁ hJ) h₂ herase
    simp only [partsAll, List.forall_mem_append, coveredAll, Bool.and_eq_true, hhead, htail]

/-- The analysis gives the property to all parts of an expression, if and only if it skips none of
the kind. -/
theorem parts_iff (e : Expression) : ∀ ⦃c e' c'⦄, J c → e.analyze.run c = .ok (e', c') →
    e.erase = e → ((∀ m ∈ e'.parts all, L m) ↔ e.covered all kind = true) := by
  induction e using Expression.induction with
  | primary n v =>
    intro c e' c' hJ h herase
    have hroot := R.analysed hJ h
    obtain ⟨t, c₁, -, hret⟩ := bind_eq_ok.mp h
    obtain ⟨rfl, -⟩ := pure_eq_ok.mp hret
    simp [Expression.parts, Expression.covered, hroot]
  | binary n l op r hl hr =>
    intro c e' c' hJ h herase
    have hroot := R.analysed hJ h
    simp only [Expression.erase, Expression.binary.injEq] at herase
    obtain ⟨l', c₁, h₁, h⟩ := bind_eq_ok.mp h
    obtain ⟨r', c₂, h₂, h⟩ := bind_eq_ok.mp h
    obtain ⟨lt, c₃, -, h⟩ := bind_eq_ok.mp h
    obtain ⟨rt, c₄, -, h⟩ := bind_eq_ok.mp h
    obtain ⟨t, c₅, -, hret⟩ := bind_eq_ok.mp h
    obtain ⟨rfl, -⟩ := pure_eq_ok.mp hret
    have hleft := hl hJ h₁ herase.2.1
    have hright := hr (R.keeps l h₁ hJ) h₂ herase.2.2.2
    simp only [Expression.parts, Expression.covered, List.forall_mem_cons, List.forall_mem_append,
      Bool.and_eq_true, hroot, hleft, hright, true_and]
  | pointerOf n t _ =>
    intro c e' c' hJ h herase
    have hroot := R.analysed hJ h
    simp only [Expression.erase, Expression.pointerOf.injEq] at herase
    obtain ⟨rfl, -⟩ := pure_eq_ok.mp h
    simp only [Expression.parts, Expression.covered, List.forall_mem_cons, hroot,
      R.clearOf_parts herase.2, true_and]
  | rowLiteral n es hes =>
    intro c e' c' hJ h herase
    have hroot := R.analysed hJ h
    simp only [Expression.erase, Expression.rowLiteral.injEq] at herase
    obtain ⟨es', c₁, h₁, hret⟩ := bind_eq_ok.mp h
    obtain ⟨rfl, -⟩ := pure_eq_ok.mp hret
    have helements := R.elements_of hes hJ h₁ herase.2
    simp only [Expression.parts, Expression.covered, List.forall_mem_cons, hroot, helements, true_and]
  | arrayLiteral n es hes =>
    cases es with
    | nil =>
      intro c e' c' hJ h herase
      exact absurd h (by simp [Expression.analyze])
    | cons e es =>
      intro c e' c' hJ h herase
      have hroot := R.analysed hJ h
      simp only [Expression.erase, Expression.arrayLiteral.injEq, eraseList_cons] at herase
      obtain ⟨e', c₁, h₁, h⟩ := bind_eq_ok.mp h
      obtain ⟨t, c₂, -, hret⟩ := bind_eq_ok.mp h
      obtain ⟨rfl, -⟩ := pure_eq_ok.mp hret
      have hfirst := hes e List.mem_cons_self hJ h₁ herase.2.1
      simp only [Expression.parts, Expression.covered, partsAll, List.forall_mem_cons,
        List.forall_mem_append, Bool.and_eq_true, hroot, hfirst, R.clearOf_partsAll herase.2.2, true_and]
  | variableRef n x =>
    intro c e' c' hJ h herase
    have hroot := R.analysed hJ h
    obtain ⟨t, c₁, -, hret⟩ := bind_eq_ok.mp h
    obtain ⟨rfl, -⟩ := pure_eq_ok.mp hret
    simp [Expression.parts, Expression.covered, hroot]
  | functionCall n p as _ has =>
    intro c e' c' hJ h herase
    have hroot := R.analysed hJ h
    simp only [Expression.erase, Expression.functionCall.injEq] at herase
    obtain ⟨t, c₁, h₁, h⟩ := bind_eq_ok.mp h
    obtain ⟨as', c₂, h₂, hret⟩ := bind_eq_ok.mp h
    obtain ⟨rfl, -⟩ := pure_eq_ok.mp hret
    have hargs := R.args_of has (R.lookup _ h₁ hJ) h₂ herase.2.2
    have hcallee : (∀ m ∈ if all then p.parts all else [], L m) ↔
        (!all || clearOf kind (p.parts all)) = true := by
      cases all with
      | true => simpa using R.clearOf_parts herase.2.1
      | false => simp
    simp only [Expression.parts, Expression.covered, List.forall_mem_cons, List.forall_mem_append,
      Bool.and_eq_true, hroot, hcallee, hargs, true_and]
  | arrayReference n p i hp hi =>
    cases p with
    | none =>
      intro c e' c' hJ h herase
      exact absurd h (by simp [Expression.analyze])
    | some p =>
      intro c e' c' hJ h herase
      have hroot := R.analysed hJ h
      simp only [Expression.erase, eraseParent, Expression.arrayReference.injEq, Option.some.injEq]
        at herase
      obtain ⟨p', c₁, h₁, h⟩ := bind_eq_ok.mp h
      obtain ⟨i', c₂, h₂, h⟩ := bind_eq_ok.mp h
      obtain ⟨t, c₃, -, hret⟩ := bind_eq_ok.mp h
      obtain ⟨rfl, -⟩ := pure_eq_ok.mp hret
      have hparent := hp p rfl hJ h₁ herase.2.1
      have hindex := hi (R.keeps p h₁ hJ) h₂ herase.2.2
      simp only [Expression.parts, Expression.covered, partsParent, coveredParent, List.forall_mem_cons,
        List.forall_mem_append, Bool.and_eq_true, hroot, hparent, hindex, true_and]
  | memberReference n p x o hp =>
    intro c e' c' hJ h herase
    have hroot := R.analysed hJ h
    simp only [Expression.erase, Expression.memberReference.injEq] at herase
    obtain ⟨p', c₁, h₁, h⟩ := bind_eq_ok.mp h
    obtain ⟨m, c₂, h₂, hret⟩ := bind_eq_ok.mp h
    obtain ⟨rfl, -⟩ := pure_eq_ok.mp hret
    have hparent := hp hJ h₁ herase.2.1
    simp only [Expression.parts, Expression.covered, List.forall_mem_cons, hroot, hparent, true_and]
  | assign n t v ht hv =>
    intro c e' c' hJ h herase
    have hroot := R.analysed hJ h
    simp only [Expression.erase, Expression.assign.injEq] at herase
    obtain ⟨t', c₁, h₁, h⟩ := bind_eq_ok.mp h
    obtain ⟨v', c₂, h₂, hret⟩ := bind_eq_ok.mp h
    obtain ⟨rfl, -⟩ := pure_eq_ok.mp hret
    have htarget : (∀ m ∈ if all || t'.hasAddress then t'.parts all else [], L m) ↔
        (!(all || t.hasAddress) || t.covered all kind) = true := by
      rw [t.hasAddress_analyze h₁]
      cases all || t.hasAddress with
      | true => simpa using ht hJ h₁ herase.2.1
      | false => simp
    have hvalue := hv (R.keeps t h₁ hJ) h₂ herase.2.2
    simp only [Expression.parts, Expression.covered, List.forall_mem_cons, List.forall_mem_append,
      Bool.and_eq_true, hroot, htarget, hvalue, true_and]

end NodeRules

/-- A tree as it was built: nothing has been recorded in its expressions. -/
def Unanalysed (ss : List Statement) : Prop := ∀ e ∈ expressionsAll ss, e.erase = e

theorem NodeRules.program_iff {J : Ctx → Prop} {kind : Expression → Bool} {L : Expression → Prop}
    (R : NodeRules J kind L) {all : Bool} {ss ss' : List Statement} {c c' : Ctx} (hss : Unanalysed ss)
    (hJ : ∀ ns c₁, ns ⊆ enteredAll ss → Enters ns c c₁ → J c₁)
    (h : (analyzeAll ss).run c = .ok (ss', c')) :
    (∀ e ∈ expressionsAll ss', ∀ m ∈ e.parts all, L m) ↔
      ∀ e ∈ expressionsAll ss, e.covered all kind = true := by
  have heach := (analyses_all h).each
  unfold Unanalysed at hss
  clear h
  generalize expressionsAll ss = es at hss heach ⊢
  generalize expressionsAll ss' = es' at heach ⊢
  induction heach with
  | nil => simp
  | cons hhead htail ih =>
    rw [List.forall_mem_cons] at hss
    obtain ⟨ns, c₁, c₂, hns, henters, hrun⟩ := hhead
    have hparts := @parts_iff _ _ _ R all _ _ _ _ (hJ ns c₁ hns henters) hrun hss.1
    rw [List.forall_mem_cons, List.forall_mem_cons]
    exact and_congr hparts (ih hss.2)

def Expression.isMember : Expression → Bool
  | .memberReference _ _ _ _ => true
  | _ => false

/-- A member reference that has been analysed: its offset is the index of the named member in the
tuple type of its parent, its type the type of that member. -/
def Expression.Resolved : Expression → Prop
  | .memberReference n p x o => ∃ id names typeNames props params types i,
      p.note.type = some (.tuple id names typeNames props params types) ∧
        names.findIdx? (· == x) = some i ∧ o = some i ∧ types[i]? = some n.type
  | _ => True

theorem Expression.resolved_of_not_member {e : Expression} (h : e.isMember = false) : e.Resolved := by
  cases e with
  | memberReference n p x o => exact absurd h (by simp [isMember])
  | _ => trivial

theorem findMember_resolved {n : Note} {p : Expression} {x : Text} {m : ℕ × Option NodeType}
    {c c' : Ctx} (h : (findMember x p.note.type).run c = .ok (m, c')) :
    (Expression.memberReference { n with type := m.2 } p x (some m.1)).Resolved := by
  unfold findMember at h
  split at h
  case h_1 id names typeNames props params types htype =>
    split at h
    case h_1 i hi =>
      obtain ⟨t, c₁, h₁, hret⟩ := bind_eq_ok.mp h
      obtain ⟨rfl, -⟩ := pure_eq_ok.mp hret
      obtain ⟨ht, -⟩ := require_eq_ok.mp h₁
      exact ⟨id, names, typeNames, props, params, types, i, htype, hi, rfl, ht⟩
    case h_2 => exact absurd h (by simp)
  case h_2 => exact absurd h (by simp)

/-- A member reference without an offset is not resolved. -/
def Expression.unset : Expression → Bool
  | .memberReference _ _ _ none => true
  | _ => false

theorem Expression.not_resolved_of_unset {e : Expression} (h : e.unset = true) : ¬e.Resolved := by
  cases e with
  | memberReference n p x o =>
    cases o with
    | none => simp [Expression.Resolved]
    | some i => exact absurd h (by simp [Expression.unset])
  | _ => exact absurd h (by simp [Expression.unset])

theorem memberRules : NodeRules (fun _ => True) Expression.isMember Expression.Resolved where
  keeps := fun _ _ _ _ _ _ => trivial
  lookup := fun _ _ _ _ _ _ => trivial
  analysed := by
    intro e e' c c' _ h
    cases hm : e'.isMember with
    | false => exact Expression.resolved_of_not_member hm
    | true =>
      have herase := e.analyze_erase h
      cases e with
      | memberReference n p x o =>
        obtain ⟨p', c₁, -, h⟩ := bind_eq_ok.mp h
        obtain ⟨m, c₂, h₂, hret⟩ := bind_eq_ok.mp h
        obtain ⟨rfl, -⟩ := pure_eq_ok.mp hret
        exact findMember_resolved h₂
      | _ =>
        cases e' with
        | memberReference n p x o => exact absurd herase (by simp [Expression.erase])
        | _ => trivial
  erased := by
    intro e herase
    cases e with
    | memberReference n p x o =>
      simp only [Expression.erase, Expression.memberReference.injEq] at herase
      obtain ⟨-, -, -, rfl⟩ := herase
      simp [Expression.Resolved, Expression.isMember]
    | _ => simp [Expression.Resolved, Expression.isMember]

/-- After the analysis every member reference that code generation evaluates is resolved, if and
only if none of them stands in the target of a pointer or behind the first element of an array
literal. -/
theorem members_resolved_iff {ss ss' : List Statement} {c c' : Ctx} (hss : Unanalysed ss)
    (h : (analyzeAll ss).run c = .ok (ss', c')) :
    (∀ e ∈ expressionsAll ss', ∀ m ∈ e.parts false, m.Resolved) ↔
      ∀ e ∈ expressionsAll ss, e.covered false Expression.isMember = true :=
  memberRules.program_iff hss (fun _ _ _ _ => trivial) h

/-- A row with one column, scanned. -/
def scanMember : List Statement :=
  [.define (some (.tuple .tuple [text "x"] [text "int"] [0] [none] [])) (text "t"),
    .scan (text "t") (text "r")
      [.emit none (.rowLiteral {} [.memberReference {} (.variable {} (text "r")) (text "x") none])] {}]

theorem members_resolved_iff_scanMember : Unanalysed scanMember ∧
    ∃ ss' c', (analyzeAll scanMember).run Ctx.initial = .ok (ss', c') ∧
      ((∀ e ∈ expressionsAll ss', ∀ m ∈ e.parts false, m.Resolved) ↔
        ∀ e ∈ expressionsAll scanMember, e.covered false Expression.isMember = true) := by
  have hss : Unanalysed scanMember := by
    intro e he
    obtain rfl := List.mem_singleton.mp he
    rfl
  have hok : ((analyzeAll scanMember).run Ctx.initial).isOk = true := by decide +kernel
  obtain ⟨ss', c', h⟩ := run_of_isOk hok
  exact ⟨hss, ss', c', h, members_resolved_iff hss h⟩

def arrayMember : Text := text "define<{int:x key}> t scan t, r { let a = [1, r.x] }"

/-- The second element of the array is never analysed. -/
theorem arrayMember_not_resolved : ∃ ss rest ss' c', parse 40 arrayMember = .ok ss rest ∧
    (analyzeAll ss).run Ctx.initial = .ok (ss', c') ∧
      ¬∀ e ∈ expressionsAll ss', ∀ m ∈ e.parts false, m.Resolved := by
  have hcheck : (parse 40 arrayMember).returnsWith (fun ss =>
      (analyzeAll ss).returnsWith Ctx.initial fun ss' _ =>
        (expressionsAll ss').any fun e => (e.parts false).any Expression.unset) = true := by
    decide +kernel
  obtain ⟨ss, rest, hparse, hcheck⟩ := StreamParser.Outcome.returnsWith_iff.mp hcheck
  obtain ⟨ss', c', hrun, hunset⟩ := Gen.returnsWith_iff.mp hcheck
  refine ⟨ss, rest, ss', c', hparse, hrun, fun hall => ?_⟩
  obtain ⟨e, he, hany⟩ := List.any_eq_true.mp hunset
  obtain ⟨m, hm, hset⟩ := List.any_eq_true.mp hany
  exact Expression.not_resolved_of_unset hset (hall e he m hm)

end Reir
