import Reir.Catalog
import Reir.CodegenRules
import Reir.Erasure

/-! What a compilation that fails leaves in the catalog. The allocation pass creates the table of
each definition as it comes to it, so the tables of the definitions before the statement that
fails are there. -/
namespace Reir
open Gen

def MetaData.createTables (m : MetaData) (tables : List (Text × List Attribute)) : MetaData :=
  tables.foldl (fun m t => m.createTable t.1 t.2) m

/-- The catalog after a compilation, whether it returns or fails. -/
def catalogAfter (m : MetaData) (ss : List Statement) : MetaData :=
  match (compile ss).run Ctx.initial with
  | .ok (_, c) => m.createTables c.created
  | .error f => m.createTables f.created

/-- The columns of the table of a definition, if its lists are long enough. -/
def columns : List Text → List ℕ → List (Option Int) → List (Option NodeType) →
    Option (List Attribute)
  | [], _, _, _ => some []
  | x :: names, prop :: props, param :: params, some t :: types =>
    (columns names props params types).map ((attributeOf x prop param t.id).toList ++ ·)
  | _, _, _, _ => none

theorem defineAttrs_eq (names : List Text) (props : List ℕ) (params : List (Option Int))
    (types : List (Option NodeType)) :
    defineAttrs names props params types = Gen.require .undefined (columns names props params types) := by
  fun_induction columns names props params types with
  | case1 => rfl
  | case2 x names prop props param params t types ih =>
    rw [defineAttrs, ih]
    cases columns names props params types with
    | none => rfl
    | some attrs => rfl
  | case3 names props params types h₁ h₂ =>
    rw [defineAttrs]
    · rfl
    · exact h₁
    · exact h₂

def Statement.table : Statement → Option (Text × List Attribute)
  | .define (some (.tuple _ names _ props params types)) name =>
    (columns names props params types).map fun attrs => (name, attrs)
  | _ => none

/-- A statement that `alloca_stack` is called on, without what the passes record, and the table
it defines. -/
structure Visit where
  statement : Statement
  table : Option (Text × List Attribute)

def Statement.visited (s : Statement) : Visit := ⟨s.erase, s.table⟩

/-- The call of `alloca_stack` on the statement failed, with these tables there. -/
def Visit.Fails (v : Visit) (f : Failure) : Prop :=
  ∃ (s : Statement) (c : Ctx), s.visited = v ∧ c.created = f.created ∧ s.allocaStack.run c = .error f

mutual

/-- The visits within one call of `alloca_stack`: a `For` only passes the call on. -/
def Statement.allocas : Statement → List Visit
  | .forStmt init cond every blk => allocasInit (Statement.forStmt init cond every blk).visited init
  | s => [s.visited]

def allocasInit (self : Visit) : Ptr Statement → List Visit
  | .null => []
  | .uninit => [self]
  | .to s => s.allocas

end

mutual

/-- The visits of the allocation pass, in its order. -/
def Statement.visits : Statement → List Visit
  | .block ss => visitsAll ss
  | .transaction _ ss => visitsAll ss
  | .forStmt init cond every blk =>
    let calls := allocasInit (Statement.forStmt init cond every blk).visited init
    calls ++ (calls ++ visitsAll blk)
  | .scan table rowName blk frame =>
    (Statement.scan table rowName blk frame).visited :: visitsAll blk
  | .ifStmt _ ts fs => visitsAll ts ++ visitsElse fs
  | s => s.allocas

def visitsElse : Option (List Statement) → List Visit
  | none => []
  | some ss => visitsAll ss

def visitsAll : List Statement → List Visit
  | [] => []
  | s :: ss => s.visits ++ visitsAll ss

end

/-- A step that creates no table, whether it returns or fails. -/
structure Gen.CreatesNone {α : Type} (p : Gen α) : Prop where
  ok : ∀ ⦃c a c'⦄, p.run c = .ok (a, c') → c'.created = c.created
  error : ∀ ⦃c f⦄, p.run c = .error f → f.created = c.created

namespace Gen

theorem createsNone_of_ok {α : Type} {p : Gen α} {a : Ctx → α} {g : Ctx → Ctx}
    (h : ∀ c, p.run c = .ok (a c, g c)) (hg : ∀ c, (g c).created = c.created) : p.CreatesNone where
  ok := by
    intro c b c' hrun
    rw [h, Except.ok.injEq, Prod.mk.injEq] at hrun
    rw [← hrun.2, hg]
  error := by
    intro c f hrun
    rw [h] at hrun
    exact absurd hrun (by simp)

theorem createsNone_modify {g : Ctx → Ctx} (hg : ∀ c, (g c).created = c.created) :
    (Gen.modify g).CreatesNone :=
  createsNone_of_ok (fun _ => rfl) hg

theorem createsNone_pure {α : Type} (a : α) : (Pure.pure a : Gen α).CreatesNone :=
  createsNone_of_ok (fun _ => rfl) fun _ => rfl

theorem createsNone_fail {α : Type} (e : CompileError) : (fail e : Gen α).CreatesNone where
  ok := by
    intro c a c' h
    exact absurd h (by simp)
  error := by
    intro c f h
    rw [run_fail, Except.error.injEq] at h
    rw [← h]

theorem createsNone_require {α : Type} (e : CompileError) (o : Option α) :
    (require e o).CreatesNone := by
  cases o with
  | none => exact createsNone_fail e
  | some a => exact createsNone_pure a

theorem CreatesNone.bind {α β : Type} {p : Gen α} {f : α → Gen β} (hp : p.CreatesNone)
    (hf : ∀ a, (f a).CreatesNone) : (p >>= f).CreatesNone where
  ok := by
    intro c b c' h
    obtain ⟨a, c₁, h₁, h₂⟩ := bind_eq_ok.mp h
    rw [(hf a).ok h₂, hp.ok h₁]
  error := by
    intro c e h
    rcases bind_eq_error.mp h with hrun | ⟨a, c₁, hrun, h⟩
    · exact hp.error hrun
    · rw [(hf a).error h, hp.ok hrun]

theorem createsNone_lookup : LookupRules Gen.CreatesNone where
  pure := createsNone_pure
  fail := createsNone_fail
  get := createsNone_of_ok (fun _ => rfl) fun _ => rfl
  require := createsNone_require
  bind := CreatesNone.bind
  registerRow := by
    intro ts
    refine CreatesNone.bind (createsNone_modify ?_) fun _ => createsNone_pure _
    intro c
    split_ifs
    · rfl
    · rfl

theorem createsNone_analyze : AnalyzeRules Gen.CreatesNone where
  pure := createsNone_pure
  fail := createsNone_fail
  get := createsNone_lookup.get
  require := createsNone_require
  bind := CreatesNone.bind
  modify := by
    intro g h
    apply createsNone_modify
    intro c
    have hcreated : (g c).untyped.created = c.untyped.created := by rw [h]
    exact hcreated

theorem createsNone_alloca : AllocaRules Gen.CreatesNone where
  toLookupRules := createsNone_lookup
  createAlloca := fun _ => createsNone_of_ok (fun _ => rfl) fun _ => rfl

theorem createsNone_code : CodeRules Gen.CreatesNone where
  toLookupRules := createsNone_lookup
  emitInstr := fun _ => createsNone_modify fun _ => rfl
  emitResult := fun _ _ => createsNone_of_ok (fun _ => rfl) fun _ => rfl
  emitLoad := fun _ _ => createsNone_of_ok (fun _ => rfl) fun _ => rfl
  createBlock := createsNone_of_ok (fun _ => rfl) fun _ => rfl
  setInsertPoint := fun _ => createsNone_modify fun _ => rfl
  getInsertBlock := createsNone_of_ok (fun _ => rfl) fun _ => rfl
  enterLoop := fun _ => createsNone_modify fun _ => rfl
  exitLoop := createsNone_modify fun _ => rfl

end Gen

/-- A part of the allocation pass that makes the given visits: having returned it has created
their tables, and having failed it did so at one of them, after the tables of those before. -/
structure Gen.Visits {α : Type} (vs : List Visit) (p : Gen α) : Prop where
  ok : ∀ ⦃c a c'⦄, p.run c = .ok (a, c') → c'.created = c.created ++ vs.filterMap Visit.table
  error : ∀ ⦃c f⦄, p.run c = .error f → ∃ before v after, vs = before ++ v :: after ∧
    f.created = c.created ++ before.filterMap Visit.table ∧ v.Fails f

theorem Gen.visits_pure {α : Type} (a : α) : Gen.Visits [] (pure a : Gen α) where
  ok := by
    intro c b c' h
    rw [(pure_eq_ok.mp h).2]
    simp
  error := by
    intro c f h
    exact nomatch h

theorem Gen.Visits.bind {α β : Type} {p : Gen α} {f : α → Gen β} {vs ws : List Visit}
    {P : α → Prop} (hp : Gen.Visits vs p) (hP : p.Yields P) (hf : ∀ a, P a → Gen.Visits ws (f a)) :
    Gen.Visits (vs ++ ws) (p >>= f) where
  ok := by
    intro c b c' h
    obtain ⟨a, c₁, h₁, h₂⟩ := bind_eq_ok.mp h
    rw [(hf a (hP h₁)).ok h₂, hp.ok h₁, List.filterMap_append, List.append_assoc]
  error := by
    intro c e h
    rcases bind_eq_error.mp h with hrun | ⟨a, c₁, hrun, h⟩
    · obtain ⟨before, v, after, hvs, hcreated, hfails⟩ := hp.error hrun
      exact ⟨before, v, after ++ ws, by simp [hvs], hcreated, hfails⟩
    · obtain ⟨before, v, after, hws, hcreated, hfails⟩ := (hf a (hP hrun)).error h
      refine ⟨vs ++ before, v, after, by simp [hws], ?_, hfails⟩
      rw [hcreated, hp.ok hrun, List.filterMap_append, List.append_assoc]

theorem Gen.Visits.map {α β : Type} {p : Gen α} {vs : List Visit} (hp : Gen.Visits vs p)
    (f : α → β) : Gen.Visits vs (p >>= fun a => pure (f a)) := by
  have h := hp.bind (yields_true p) fun a _ => visits_pure (f a)
  rwa [List.append_nil] at h

/-- A statement that `alloca_stack` does not pass on. -/
theorem visits_self {s : Statement}
    (hok : ∀ ⦃c s' c'⦄, s.allocaStack.run c = .ok (s', c') → c'.created = c.created ++ s.table.toList)
    (herror : ∀ ⦃c f⦄, s.allocaStack.run c = .error f → f.created = c.created) :
    Gen.Visits [s.visited] s.allocaStack where
  ok := by
    intro c s' c' h
    rw [hok h]
    cases ht : s.table with
    | none => simp [Statement.visited, ht]
    | some t => simp [Statement.visited, ht]
  error := by
    intro c f h
    have hcreated := herror h
    exact ⟨[], s.visited, [], rfl, by simpa using hcreated, s, c, rfl, hcreated.symm, h⟩

theorem visits_of_createsNone {s : Statement} (h : s.allocaStack.CreatesNone) (ht : s.table = none) :
    Gen.Visits [s.visited] s.allocaStack := by
  apply visits_self
  · intro c s' c' hrun
    rw [h.ok hrun, ht, Option.toList_none, List.append_nil]
  · exact h.error

theorem defineTable_ok {schema : Option NodeType} {name : Text} {c c' : Ctx} {u : Unit}
    (h : (defineTable schema name).run c = .ok (u, c')) :
    c'.created = c.created ++ (Statement.define schema name).table.toList := by
  unfold defineTable at h
  split at h
  case h_1 id names typeNames props params types =>
    simp only [defineAttrs_eq, bind_eq_ok, require_eq_ok, modify_eq_ok] at h
    obtain ⟨attrs, c₁, ⟨hattrs, rfl⟩, _, c₂, rfl, rfl⟩ := h
    simp [Statement.table, hattrs, Ctx.setSchema]
  case h_2 => exact absurd h (by simp)

theorem defineTable_error {schema : Option NodeType} {name : Text} {c : Ctx} {f : Failure}
    (h : (defineTable schema name).run c = .error f) : f.created = c.created := by
  unfold defineTable at h
  split at h
  case h_1 id names typeNames props params types =>
    rw [defineAttrs_eq] at h
    cases hattrs : columns names props params types with
    | some attrs =>
      rw [hattrs] at h
      exact absurd h (by simp [Gen.require, Gen.pure, run_bind, Gen.modify])
    | none =>
      rw [hattrs] at h
      exact (createsNone_fail (α := Unit) .undefined).error h
  case h_2 => exact (createsNone_fail _).error h

theorem visits_define (schema : Option NodeType) (name : Text) :
    Gen.Visits [(Statement.define schema name).visited] (Statement.define schema name).allocaStack := by
  apply visits_self
  · intro c s' c' h
    obtain ⟨_, c₁, h₁, h₂⟩ := bind_eq_ok.mp h
    rw [← (pure_eq_ok.mp h₂).2, defineTable_ok h₁]
  · intro c f h
    rcases bind_eq_error.mp h with hrun | ⟨_, c₁, -, hpure⟩
    · exact defineTable_error hrun
    · exact nomatch hpure

theorem allocaScan_createsNone (table rowName : Text) (frame : ScanFrame) :
    (allocaScan table rowName frame).CreatesNone := by
  have R := createsNone_alloca
  exact R.bind (R.lookupSchema _ _) fun s => R.bind (R.allocaRecord s _) fun _ =>
    R.bind (R.scanColumns _) fun ts =>
      R.bind (createsNone_of_ok (fun _ => rfl) fun _ => rfl) fun t =>
        R.bind (R.createAlloca t) fun _ => R.bind (createsNone_modify fun _ => rfl) fun _ => R.pure _

theorem visits_allocaScan (table rowName : Text) (blk : List Statement) (frame : ScanFrame) :
    Gen.Visits [(Statement.scan table rowName blk frame).visited] (allocaScan table rowName frame) where
  ok := by
    intro c frame' c' h
    rw [(allocaScan_createsNone table rowName frame).ok h]
    simp [Statement.visited, Statement.table]
  error := by
    intro c f h
    have hcreated := (allocaScan_createsNone table rowName frame).error h
    have hfails : (Statement.scan table rowName blk frame).allocaStack.run c = .error f :=
      bind_eq_error.mpr (.inl h)
    exact ⟨[], _, [], rfl, by simpa using hcreated, _, c, rfl, hcreated.symm, hfails⟩

theorem visits_allocaInit_of {init : Ptr Statement} {self : Visit}
    (hself : init = .uninit → ∀ c : Ctx, self.Fails ⟨.undefined, c.created⟩)
    (h : ∀ s, init = .to s → Gen.Visits s.allocas s.allocaStack) :
    Gen.Visits (allocasInit self init) (allocaInit init) := by
  match init, hself, h with
  | .null, _, _ =>
    rw [allocasInit, allocaInit]
    exact visits_pure _
  | .uninit, hself, _ =>
    rw [allocasInit, allocaInit]
    constructor
    · intro c a c' hrun
      exact absurd hrun (by simp)
    · intro c f hrun
      rw [run_fail, Except.error.injEq] at hrun
      subst hrun
      exact ⟨[], self, [], rfl, by simp, hself rfl c⟩
  | .to s, _, h =>
    rw [allocasInit, allocaInit]
    exact (h s rfl).map _

theorem forStmt_uninit_fails (cond every : Ptr Expression) (blk : List Statement) (c : Ctx) :
    (Statement.forStmt .uninit cond every blk).visited.Fails ⟨.undefined, c.created⟩ :=
  ⟨_, c, rfl, rfl, rfl⟩

theorem Statement.visits_allocaStack (s : Statement) : Gen.Visits s.allocas s.allocaStack := by
  have R := createsNone_alloca
  induction s using Statement.induction with
  | block ss _ => exact visits_of_createsNone (R.pure _) rfl
  | transaction isolation ss _ => exact visits_of_createsNone (R.pure _) rfl
  | define schema name => exact visits_define schema name
  | forStmt init cond every blk hinit _ =>
    rw [allocas, allocaStack]
    refine (visits_allocaInit_of ?_ hinit).map _
    rintro rfl
    exact forStmt_uninit_fails cond every blk
  | jump t => exact visits_of_createsNone (R.pure _) rfl
  | emit stack e =>
    exact visits_of_createsNone (R.bind (R.getType e) fun t => R.bind (R.createAlloca t) fun _ =>
      R.pure _) rfl
  | insert table e frame =>
    exact visits_of_createsNone (R.bind (R.allocaInsert _ _ _) fun _ => R.pure _) rfl
  | scan table rowName blk frame _ =>
    exact visits_of_createsNone (R.bind (allocaScan_createsNone _ _ _) fun _ => R.pure _) rfl
  | letStmt name e type =>
    exact visits_of_createsNone (R.bind (R.getType e) fun t => R.bind (R.createAlloca t) fun _ =>
      R.bind (createsNone_modify fun _ => rfl) fun _ => R.pure _) rfl
  | defineTuple name type =>
    exact visits_of_createsNone (R.bind (createsNone_modify fun _ => rfl) fun _ => R.pure _) rfl
  | ifStmt cond ts fs _ _ => exact visits_of_createsNone (R.pure _) rfl
  | exprStatement stack e =>
    exact visits_of_createsNone (R.bind (R.spill _ _) fun _ => R.bind (R.eachValue e _) fun _ =>
      R.pure _) rfl

/-- A call of `alloca_stack` leaves a statement on which the same calls are made. -/
theorem Statement.allocaStack_allocas (s : Statement) :
    s.allocaStack.Yields fun s' => s'.allocas = s.allocas := by
  induction s using Statement.induction with
  | forStmt init cond every blk hinit _ =>
    intro c s' c' h
    have herase := Statement.allocaStack_erase _ h
    obtain ⟨init', c₁, h₁, h₂⟩ := bind_eq_ok.mp h
    obtain ⟨rfl, rfl⟩ := pure_eq_ok.mp h₂
    have hself : (Statement.forStmt init' cond every blk).visited =
        (Statement.forStmt init cond every blk).visited := by
      rw [visited, visited, herase]
      rfl
    rw [allocas, allocas, hself]
    match init, h₁, hinit with
    | .null, h₁, _ => rw [← (pure_eq_ok.mp h₁).1]
    | .to s, h₁, hinit =>
      obtain ⟨s', c₂, h₃, h₄⟩ := bind_eq_ok.mp h₁
      rw [← (pure_eq_ok.mp h₄).1, allocasInit, allocasInit, hinit s rfl h₃]
  | block ss _ => exact yields_pure rfl
  | transaction isolation ss _ => exact yields_pure rfl
  | define schema name => exact (yields_true _).bind fun _ _ => yields_pure rfl
  | jump t => exact yields_pure rfl
  | emit stack e =>
    exact (yields_true _).bind fun _ _ => (yields_true _).bind fun _ _ => yields_pure rfl
  | insert table e frame => exact (yields_true _).bind fun _ _ => yields_pure rfl
  | scan table rowName blk frame _ => exact (yields_true _).bind fun _ _ => yields_pure rfl
  | letStmt name e type =>
    exact (yields_true _).bind fun _ _ => (yields_true _).bind fun _ _ =>
      (yields_true _).bind fun _ _ => yields_pure rfl
  | defineTuple name type => exact (yields_true _).bind fun _ _ => yields_pure rfl
  | ifStmt cond ts fs _ _ => exact yields_pure rfl
  | exprStatement stack e =>
    exact (yields_true _).bind fun _ _ => (e.eachValue_erase _ rfl).bind fun e' h =>
      yields_pure (by simp [allocas, visited, erase, table, h])

theorem allocaInit_allocas (self : Visit) (init : Ptr Statement) :
    (allocaInit init).Yields fun init' => allocasInit self init' = allocasInit self init :=
  match init with
  | .null => yields_pure rfl
  | .uninit => yields_fail _ _
  | .to s => s.allocaStack_allocas.bind fun s' h => yields_pure (by simp [allocasInit, h])

theorem visits_eachStatement_of {ss : List Statement} (h : ∀ s ∈ ss, Gen.Visits s.visits s.visit) :
    Gen.Visits (visitsAll ss) (eachStatement ss) := by
  induction ss with
  | nil => exact visits_pure _
  | cons s ss ih =>
    rw [List.forall_mem_cons] at h
    rw [visitsAll, eachStatement]
    exact h.1.bind (yields_true _) fun _ _ => (ih h.2).map _

theorem visits_eachElse_of {fs : Option (List Statement)}
    (h : ∀ ss ∈ fs, ∀ s ∈ ss, Gen.Visits s.visits s.visit) :
    Gen.Visits (visitsElse fs) (eachElse fs) := by
  cases fs with
  | none => exact visits_pure _
  | some ss => exact (visits_eachStatement_of (h ss rfl)).map _

theorem visits_forStmt (init : Ptr Statement) (cond every : Ptr Expression) {blk : List Statement}
    (hblk : Gen.Visits (visitsAll blk) (eachStatement blk)) :
    Gen.Visits (Statement.forStmt init cond every blk).visits
      (Statement.forStmt init cond every blk).visit := by
  have hcalls : ∀ init', Gen.Visits (allocasInit (Statement.forStmt init' cond every blk).visited init')
      (allocaInit init') := by
    intro init'
    refine visits_allocaInit_of ?_ fun s _ => s.visits_allocaStack
    rintro rfl
    exact forStmt_uninit_fails cond every blk
  have hsame : (allocaInit init).Yields fun init' =>
      allocasInit (Statement.forStmt init' cond every blk).visited init' =
        allocasInit (Statement.forStmt init cond every blk).visited init := by
    intro c init' c' h
    have herase := allocaInit_erase_of (fun s _ => s.allocaStack_erase) h
    rw [← allocaInit_allocas _ init h]
    simp only [Statement.visited, Statement.erase, Statement.table, herase]
  rw [Statement.visits, Statement.visit]
  refine (hcalls init).bind hsame fun init' hinit' => ?_
  refine Gen.Visits.bind ?_ (yields_true _) fun _ _ => hblk.map _
  rw [← hinit']
  exact hcalls init'

theorem Statement.visits_visit (s : Statement) : Gen.Visits s.visits s.visit := by
  induction s using Statement.induction with
  | block ss hss => exact (visits_eachStatement_of hss).map _
  | transaction isolation ss hss => exact (visits_eachStatement_of hss).map _
  | forStmt init cond every blk _ hblk =>
    exact visits_forStmt init cond every (visits_eachStatement_of hblk)
  | scan table rowName blk frame hblk =>
    exact (visits_allocaScan table rowName blk frame).bind (yields_true _) fun _ _ =>
      (visits_eachStatement_of hblk).map _
  | ifStmt cond ts fs hts hfs =>
    exact (visits_eachStatement_of hts).bind (yields_true _) fun _ _ => (visits_eachElse_of hfs).map _
  | define schema name => exact visits_define schema name
  | jump t => exact Statement.visits_allocaStack _
  | emit stack e => exact Statement.visits_allocaStack _
  | insert table e frame => exact Statement.visits_allocaStack _
  | letStmt name e type => exact Statement.visits_allocaStack _
  | defineTuple name type => exact Statement.visits_allocaStack _
  | exprStatement stack e => exact Statement.visits_allocaStack _

theorem visits_eachStatement (ss : List Statement) : Gen.Visits (visitsAll ss) (eachStatement ss) :=
  visits_eachStatement_of fun s _ => s.visits_visit

/-- The entry block and the allocation pass. -/
def allocation (ss : List Statement) : Gen (List Statement) := do
  let entry ← createBlock
  setInsertPoint entry
  eachStatement ss

theorem visits_allocation (ss : List Statement) : Gen.Visits (visitsAll ss) (allocation ss) where
  ok := by
    intro c ss' c' h
    simp only [allocation, bind_eq_ok, createBlock_eq_ok, setInsertPoint_eq_ok] at h
    obtain ⟨_, _, ⟨rfl, rfl⟩, _, _, rfl, h⟩ := h
    have hcreated := (visits_eachStatement ss).ok h
    exact hcreated
  error := fun c _ h => (visits_eachStatement ss).error
    (c := c.newBlock.moveTo c.blocks.length) h

/-- A compilation fails in one of its three phases. -/
theorem compile_eq_error {ss : List Statement} {c : Ctx} {f : Failure} :
    (compile ss).run c = .error f ↔ (analyzeAll ss).run c = .error f ∨
      ∃ ts c₁, (analyzeAll ss).run c = .ok (ts, c₁) ∧ ((allocation ts).run c₁ = .error f ∨
        ∃ ts' c₂, (allocation ts).run c₁ = .ok (ts', c₂) ∧ (codegenAll [] ts').run c₂ = .error f) := by
  have hrest : ∀ ts c₁, (generate ts).run c₁ = .error f ↔ (allocation ts).run c₁ = .error f ∨
      ∃ ts' c₂, (allocation ts).run c₁ = .ok (ts', c₂) ∧ (codegenAll [] ts').run c₂ = .error f := by
    intro ts c₁
    have hgenerate : (generate ts).run c₁ = (allocation ts >>= fun ts' =>
        codegenAll [] ts' >>= fun _ => emitInstr (.ret (int1 true)) >>= fun _ => Pure.pure ts').run c₁ := rfl
    have hret : ∀ (ts' : List Statement) (c₃ : Ctx),
        (emitInstr (.ret (int1 true)) >>= fun _ => Pure.pure ts').run c₃ ≠ .error f := by
      intro ts' c₃ h
      exact nomatch h
    rw [hgenerate, bind_eq_error]
    simp only [bind_eq_error, hret, and_false, exists_false, or_false]
  rw [compile, bind_eq_error]
  simp only [hrest]

theorem catalogAfter_error {m : MetaData} {ss : List Statement} {f : Failure}
    (h : (compile ss).run Ctx.initial = .error f) : catalogAfter m ss = m.createTables f.created := by
  rw [catalogAfter, h]

/-- A compilation that fails leaves the catalog with the tables of the definitions that the
allocation pass came to: none if the analysis failed, all if the generation of code did, and
otherwise those before the statement that failed. -/
theorem compile_error_catalog (m : MetaData) {ss : List Statement} {f : Failure}
    (h : (compile ss).run Ctx.initial = .error f) :
    (analyzeAll ss).run Ctx.initial = .error f ∧ catalogAfter m ss = m ∨
      ∃ ts c, (analyzeAll ss).run Ctx.initial = .ok (ts, c) ∧
        ((∃ before v after, (allocation ts).run c = .error f ∧ visitsAll ts = before ++ v :: after ∧
            v.Fails f ∧ catalogAfter m ss = m.createTables (before.filterMap Visit.table)) ∨
          ∃ ts' d, (allocation ts).run c = .ok (ts', d) ∧ (codegenAll [] ts').run d = .error f ∧
            catalogAfter m ss = m.createTables ((visitsAll ts).filterMap Visit.table)) := by
  rw [catalogAfter_error h]
  rcases compile_eq_error.mp h with hanalyze | ⟨ts, c, hanalyze, hrest⟩
  · left
    have hcreated : f.created = [] := (createsNone_analyze.analyzeAll ss).error hanalyze
    exact ⟨hanalyze, by rw [hcreated]; rfl⟩
  right
  have hc : c.created = [] := (createsNone_analyze.analyzeAll ss).ok hanalyze
  refine ⟨ts, c, hanalyze, ?_⟩
  rcases hrest with halloca | ⟨ts', d, halloca, hcode⟩
  · left
    obtain ⟨before, v, after, hvisits, hcreated, hfails⟩ := (visits_allocation ts).error halloca
    rw [hc, List.nil_append] at hcreated
    exact ⟨before, v, after, halloca, hvisits, hfails, by rw [hcreated]⟩
  · right
    have hd := (visits_allocation ts).ok halloca
    have hcreated := (createsNone_code.codegenAll [] ts').error hcode
    rw [hd, hc, List.nil_append] at hcreated
    exact ⟨ts', d, halloca, hcode, by rw [hcreated]⟩

/-- `define<{int:x key}> t; insert u {1}`, where no table `u` is defined. -/
def undefinedInsert : List Statement :=
  [.define (some (.tuple .tuple [text "x"] [text "int"] [propKey] [none] [])) (text "t"),
    .insert (text "u") (.rowLiteral {} [.primary {} (some (.int 1))]) {}]

theorem undefinedInsert_error : (compile undefinedInsert).run Ctx.initial =
    .error ⟨.undefinedTable (text "u"), [(text "t", [⟨text "x", ⟨.integer, 0⟩, propKey⟩])]⟩ := by
  have hfailure : (match (compile undefinedInsert).run Ctx.initial with
      | .ok _ => none
      | .error f => some f) = some ⟨.undefinedTable (text "u"),
        [(text "t", [⟨text "x", ⟨.integer, 0⟩, propKey⟩])]⟩ := by decide_cbv
  split at hfailure
  case h_1 => exact absurd hfailure (by simp)
  case h_2 f hrun => rw [hrun, Option.some.inj hfailure]

theorem undefinedInsert_changes_catalog : ∃ f, (compile undefinedInsert).run Ctx.initial = .error f ∧
    catalogAfter MetaData.empty undefinedInsert ≠ MetaData.empty := by
  refine ⟨_, undefinedInsert_error, ?_⟩
  rw [catalogAfter_error undefinedInsert_error]
  intro h
  have htable := congrFun (congrArg MetaData.tables h) (MetaData.tableKey (text "t"))
  exact absurd htable (by decide)

theorem compile_error_catalog_undefinedInsert :
    ∃ f, (compile undefinedInsert).run Ctx.initial = .error f ∧
    ((analyzeAll undefinedInsert).run Ctx.initial = .error f ∧
        catalogAfter MetaData.empty undefinedInsert = MetaData.empty ∨
      ∃ ts c, (analyzeAll undefinedInsert).run Ctx.initial = .ok (ts, c) ∧
        ((∃ before v after, (allocation ts).run c = .error f ∧ visitsAll ts = before ++ v :: after ∧
            v.Fails f ∧ catalogAfter MetaData.empty undefinedInsert =
              MetaData.empty.createTables (before.filterMap Visit.table)) ∨
          ∃ ts' d, (allocation ts).run c = .ok (ts', d) ∧ (codegenAll [] ts').run d = .error f ∧
            catalogAfter MetaData.empty undefinedInsert =
              MetaData.empty.createTables ((visitsAll ts).filterMap Visit.table))) :=
  ⟨_, undefinedInsert_error, compile_error_catalog MetaData.empty undefinedInsert_error⟩

end Reir
