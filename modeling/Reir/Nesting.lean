import Reir.CodegenRules
import Reir.Erasure
import Reir.Parser

/-! Where the statements of a program stand: the constructs around each transaction, each jump and
each call of a function. What the passes record does not matter for it. -/
namespace Reir
open Gen StreamParser

inductive Site
  | transaction | jump
  | call (f : Text)
  | noCondition
  deriving DecidableEq, Repr

def Ptr.isNull {α : Type} : Ptr α → Bool
  | .null => true
  | _ => false

/-- The calls of an expression inside of the given frames, the innermost first. -/
def Expression.sites (fs : List Frame) (e : Expression) : List (List Frame × Site) :=
  e.callees.map fun f => (fs, .call f)

def Ptr.sites (fs : List Frame) : Ptr Expression → List (List Frame × Site)
  | .to e => e.sites fs
  | _ => []

mutual

def Statement.sites (fs : List Frame) : Statement → List (List Frame × Site)
  | .block ss => sitesAll fs ss
  | .transaction _ ss => (fs, .transaction) :: sitesAll (.transaction :: fs) ss
  | .forStmt init cond every blk =>
    sitesInit fs init ++ ((if cond.isNull then [(fs, .noCondition)] else []) ++
      (cond.sites fs ++ (every.sites fs ++ sitesAll (.loop :: fs) blk)))
  | .jump _ => [(fs, .jump)]
  | .emit _ e => e.sites fs
  | .insert _ e _ => e.sites fs
  | .scan _ _ blk _ => sitesAll (.scan :: fs) blk
  | .letStmt _ e _ => e.sites fs
  | .ifStmt cond ts es => cond.sites fs ++ (sitesAll fs ts ++ sitesElse fs es)
  | .exprStatement _ e => e.sites fs
  | .define _ _ => []
  | .defineTuple _ _ => []

def sitesInit (fs : List Frame) : Ptr Statement → List (List Frame × Site)
  | .to s => s.sites fs
  | _ => []

def sitesElse (fs : List Frame) : Option (List Statement) → List (List Frame × Site)
  | some ss => sitesAll fs ss
  | none => []

def sitesAll (fs : List Frame) : List Statement → List (List Frame × Site)
  | [] => []
  | s :: ss => s.sites fs ++ sitesAll fs ss

end

/-- Every site of a statement has the property. -/
def Statement.Sites (P : List Frame × Site → Prop) (fs : List Frame) (s : Statement) : Prop :=
  ∀ x ∈ s.sites fs, P x

def SitesAll (P : List Frame × Site → Prop) (fs : List Frame) (ss : List Statement) : Prop :=
  ∀ x ∈ sitesAll fs ss, P x

theorem sitesAll_iff {P : List Frame × Site → Prop} {fs : List Frame} {ss : List Statement} :
    SitesAll P fs ss ↔ ∀ s ∈ ss, s.Sites P fs := by
  induction ss with
  | nil => simp [SitesAll, sitesAll]
  | cons s ss ih =>
    rw [List.forall_mem_cons, ← ih]
    exact List.forall_mem_append

theorem Expression.sites_call {P : List Frame × Site → Prop} {fs : List Frame} {e : Expression} :
    (∀ x ∈ e.sites fs, P x) ↔ e.CallsOnly fun f => P (fs, .call f) := by
  simp [Expression.sites, Expression.CallsOnly]

/-- The innermost loop around a jump is inside of every construct of the given kind that the jump
is in. -/
def staysIn (f : Frame) (fs : List Frame) : Bool := !(fs.takeWhile (· ≠ .loop)).contains f

@[simp] theorem staysIn_loop (f : Frame) (fs : List Frame) : staysIn f (.loop :: fs) = true := by
  simp [staysIn]

theorem staysIn_cons {f g : Frame} (hg : g ≠ .loop) (fs : List Frame) :
    staysIn f (g :: fs) = (f ≠ g && staysIn f fs) := by
  have htake : (g :: fs).takeWhile (· ≠ .loop) = g :: fs.takeWhile (· ≠ .loop) := by
    rw [List.takeWhile_cons_of_pos (by simpa using hg)]
  have heq : (f == g) = decide (f = g) := by cases f <;> cases g <;> rfl
  rw [staysIn, htake, List.contains_cons, Bool.not_or, heq]
  simp [staysIn]

theorem calleesAll_erase_of {es : List Expression} (h : ∀ e ∈ es, e.erase.callees = e.callees) :
    calleesAll (eraseList es) = calleesAll es := by
  induction es with
  | nil => rfl
  | cons e es ih =>
    rw [List.forall_mem_cons] at h
    simp [eraseList, calleesAll, h.1, ih h.2]

theorem Expression.callees_erase (e : Expression) : e.erase.callees = e.callees := by
  induction e using Expression.induction with
  | primary n v => rfl
  | binary n l op r hl hr => simp [Expression.erase, Expression.callees, hl, hr]
  | pointerOf n t ht => exact ht
  | rowLiteral n es hes => exact calleesAll_erase_of hes
  | arrayLiteral n es hes => exact calleesAll_erase_of hes
  | variableRef n x => rfl
  | functionCall n p as _ has =>
    have hname : p.erase.calleeNames = p.calleeNames := by cases p <;> rfl
    simp [Expression.erase, Expression.callees, hname, calleesAll_erase_of has]
  | arrayReference n p i hp hi =>
    have hparent : calleesParent (eraseParent p) = calleesParent p := by
      cases p with
      | none => rfl
      | some p => exact hp p rfl
    simp [Expression.erase, Expression.callees, hparent, hi]
  | memberReference n p x o _ => rfl
  | assign n t v ht hv => simp [Expression.erase, Expression.callees, ht, hv]

theorem Expression.sites_erase (fs : List Frame) (e : Expression) : e.erase.sites fs = e.sites fs := by
  rw [Expression.sites, e.callees_erase]
  rfl

theorem Ptr.sites_erase (fs : List Frame) (p : Ptr Expression) : p.erase.sites fs = p.sites fs :=
  match p with
  | .null => rfl
  | .uninit => rfl
  | .to e => e.sites_erase fs

theorem sitesAll_erase_of {ss : List Statement} (h : ∀ s ∈ ss, ∀ fs, s.erase.sites fs = s.sites fs)
    (fs : List Frame) : sitesAll fs (eraseAll ss) = sitesAll fs ss := by
  induction ss with
  | nil => rfl
  | cons s ss ih =>
    rw [List.forall_mem_cons] at h
    simp [eraseAll, sitesAll, h.1, ih h.2]

theorem Statement.sites_erase (s : Statement) (fs : List Frame) : s.erase.sites fs = s.sites fs := by
  induction s using Statement.induction generalizing fs with
  | block ss hss => exact sitesAll_erase_of hss fs
  | transaction isolation ss hss =>
    simp [Statement.erase, Statement.sites, sitesAll_erase_of hss]
  | forStmt init cond every blk hinit hblk =>
    have hinit' : sitesInit fs (eraseInit init) = sitesInit fs init := by
      cases init with
      | null => rfl
      | uninit => rfl
      | «to» s => exact hinit s rfl fs
    have hnull : cond.erase.isNull = cond.isNull := by cases cond <;> rfl
    simp [Statement.erase, Statement.sites, hinit', hnull, Ptr.sites_erase, sitesAll_erase_of hblk]
  | scan table rowName blk frame hblk => exact sitesAll_erase_of hblk _
  | ifStmt cond ts es hts hes =>
    have helse : sitesElse fs (eraseElse es) = sitesElse fs es := by
      cases es with
      | none => rfl
      | some es => exact sitesAll_erase_of (hes es rfl) fs
    simp [Statement.erase, Statement.sites, Expression.sites_erase, sitesAll_erase_of hts, helse]
  | emit stack e => exact e.sites_erase fs
  | insert table e frame => exact e.sites_erase fs
  | letStmt name e type => exact e.sites_erase fs
  | exprStatement stack e => exact e.sites_erase fs
  | define schema name => rfl
  | jump t => rfl
  | defineTuple name type => rfl

theorem sitesAll_congr {ss ss' : List Statement} (h : eraseAll ss' = eraseAll ss) (fs : List Frame) :
    sitesAll fs ss' = sitesAll fs ss := by
  rw [← sitesAll_erase_of fun s _ => s.sites_erase, h, sitesAll_erase_of fun s _ => s.sites_erase]

/-- Every `For` has a condition, or an indeterminate one. -/
def Statement.Headed (s : Statement) : Prop := ∀ fs, s.Sites (fun x => x.2 ≠ .noCondition) fs

def HeadedAll (ss : List Statement) : Prop := ∀ s ∈ ss, s.Headed

theorem HeadedAll.sites {ss : List Statement} (h : HeadedAll ss) (fs : List Frame) :
    SitesAll (fun x => x.2 ≠ .noCondition) fs ss :=
  sitesAll_iff.mpr fun s hs => h s hs fs

theorem Expression.headed (e : Expression) (fs : List Frame) :
    ∀ x ∈ e.sites fs, x.2 ≠ .noCondition := by
  rw [Expression.sites_call]
  exact fun f _ => by simp

theorem Ptr.headed (p : Ptr Expression) (fs : List Frame) : ∀ x ∈ p.sites fs, x.2 ≠ .noCondition :=
  match p with
  | .null => fun x hx => absurd hx (by simp [Ptr.sites])
  | .uninit => fun x hx => absurd hx (by simp [Ptr.sites])
  | .to e => e.headed fs

theorem headed_forStmt {init : Ptr Statement} {cond every : Ptr Expression} {blk : List Statement}
    (hinit : ∀ s, init = .to s → s.Headed) (hcond : cond ≠ .null) (hblk : HeadedAll blk) :
    (Statement.forStmt init cond every blk).Headed := by
  intro fs
  have hinit' : ∀ x ∈ sitesInit fs init, x.2 ≠ .noCondition :=
    match init, hinit with
    | .null, _ => fun x hx => absurd hx (by simp [sitesInit])
    | .uninit, _ => fun x hx => absurd hx (by simp [sitesInit])
    | .to s, hinit => hinit s rfl fs
  have hnull : cond.isNull = false := by
    cases cond with
    | null => exact absurd rfl hcond
    | uninit => rfl
    | «to» e => rfl
  simp only [Statement.Sites, Statement.sites, hnull, List.forall_mem_append]
  exact ⟨hinit', by simp, cond.headed fs, every.headed fs, hblk.sites _⟩

theorem headed_ifStmt {cond : Expression} {ts : List Statement} {es : Option (List Statement)}
    (hts : HeadedAll ts) (hes : ∀ ss ∈ es, HeadedAll ss) : (Statement.ifStmt cond ts es).Headed := by
  intro fs
  have helse : ∀ x ∈ sitesElse fs es, x.2 ≠ .noCondition := by
    cases es with
    | none => simp [sitesElse]
    | some ss => exact (hes ss rfl).sites fs
  simp only [Statement.Sites, Statement.sites, List.forall_mem_append]
  exact ⟨cond.headed fs, hts.sites fs, helse⟩

/-- What the parsers of statements return with some fuel. -/
structure ParsesHeaded (n : ℕ) : Prop where
  statement : (parseStatement n).Gives fun s => ∀ s' ∈ s, s'.Headed
  items : (parseItems n).Gives HeadedAll
  block : (parseBlock n).Gives HeadedAll
  transaction : (parseTransaction n).Gives Statement.Headed
  ifStmt : (parseIf n).Gives Statement.Headed
  forStmt : (parseFor n).Gives Statement.Headed
  scan : (parseScan n).Gives Statement.Headed

theorem gives_some {p : ParserM Statement} (h : p.Gives Statement.Headed) :
    (some <$> p).Gives fun s => ∀ s' ∈ s, s'.Headed :=
  h.map fun _ hs _ hs' => Option.mem_some_iff.mp hs' ▸ hs

theorem headed_append {s : Option Statement} {ss : List Statement} (hs : ∀ s' ∈ s, s'.Headed)
    (hss : HeadedAll ss) : HeadedAll (s.toList ++ ss) := by
  cases s with
  | none => exact hss
  | some s => exact List.forall_mem_cons.mpr ⟨hs s rfl, hss⟩

/-- Statements that are made of expressions. -/
theorem parseSimple_headed (n : ℕ) : (parseLet n).Gives Statement.Headed ∧
    (parseDefine n).Gives Statement.Headed ∧ (parseEmit n).Gives Statement.Headed ∧
    (parseInsert n).Gives Statement.Headed ∧ (parseExprStatement n).Gives Statement.Headed ∧
    (parseDefineTuple n).Gives Statement.Headed := by
  refine ⟨?_, ?_, ?_, ?_, ?_, ?_⟩
  · exact (gives_true _).bind fun _ _ => (gives_true _).bind fun _ _ => (gives_true _).bind fun _ _ =>
      (gives_true _).bind fun _ _ => (gives_true _).bind fun e _ => gives_pure fun fs => e.headed fs
  · exact (gives_true _).bind fun _ _ => (gives_true _).bind fun _ _ => (gives_true _).bind fun _ _ =>
      gives_pure fun fs x hx => absurd hx (by simp [Statement.sites])
  · exact (gives_true _).bind fun _ _ => (gives_true _).bind fun e _ => gives_pure fun fs => e.headed fs
  · exact (gives_true _).bind fun _ _ => (gives_true _).bind fun _ _ => (gives_true _).bind fun _ _ =>
      (gives_true _).bind fun e _ => gives_pure fun fs => e.headed fs
  · exact (gives_true _).bind fun e _ => gives_pure fun fs => e.headed fs
  · refine (gives_true _).bind fun _ _ => (gives_true _).bind fun _ _ => (gives_true _).bind fun t _ => ?_
    split_ifs
    · exact gives_pure fun fs x hx => absurd hx (by simp [Statement.sites])
    · exact gives_throw

theorem parseHeaderPart_gives {p : ParserM Expression} : (parseHeaderPart p).Gives (· ≠ .null) := by
  refine (gives_true _).bind fun t _ => ?_
  split_ifs
  · exact gives_pure (by simp)
  · exact (gives_true _).map (by simp)

theorem parseInitPart_gives {p : ParserM (Option Statement)} (hp : p.Gives fun s => ∀ s' ∈ s, s'.Headed) :
    (parseInitPart p).Gives fun init => ∀ s, init = .to s → s.Headed := by
  refine (gives_true _).bind fun t _ => ?_
  split_ifs
  · exact gives_pure (by simp)
  · refine hp.bind fun s hs => ?_
    cases s with
    | none => exact gives_pure (by simp)
    | some s => exact gives_pure fun s' h => Ptr.to.inj h ▸ hs s rfl

theorem parsesHeaded_zero : ParsesHeaded 0 where
  statement := gives_timeout
  items := gives_timeout
  block := gives_timeout
  transaction := gives_timeout
  ifStmt := gives_timeout
  forStmt := gives_timeout
  scan := gives_timeout

theorem parseStatement_headed {n : ℕ} (h : ParsesHeaded n) :
    (parseStatement (n+1)).Gives fun s => ∀ s' ∈ s, s'.Headed := by
  obtain ⟨hlet, hdefine, hemit, hinsert, hexpr, htuple⟩ := parseSimple_headed n
  have hjump : ∀ t, (next >>= fun _ => pure (some (Statement.jump t)) : ParserM (Option Statement)).Gives
      fun s => ∀ s' ∈ s, s'.Headed := by
    refine fun t => (gives_true _).bind fun _ _ => gives_pure fun s' hs' fs x hx => ?_
    obtain rfl := Option.mem_some_iff.mp hs'
    obtain rfl := List.mem_singleton.mp hx
    simp
  rw [parseStatement]
  refine (gives_true _).bind fun t _ => ?_
  split
  · exact gives_pure (by simp)
  · refine h.block.bind fun ss hss => gives_pure fun s' hs' fs => ?_
    obtain rfl := Option.mem_some_iff.mp hs'
    exact hss.sites fs
  · exact gives_some h.transaction
  · exact gives_some hlet
  · exact gives_some h.ifStmt
  · exact gives_some h.forStmt
  · exact gives_some hdefine
  · exact gives_some hemit
  · exact gives_some hinsert
  · exact gives_some h.scan
  · exact hjump _
  · exact hjump _
  · exact gives_some hexpr
  · exact gives_some hexpr
  · exact gives_some hexpr
  · exact gives_some hexpr
  · exact gives_some hexpr
  · exact gives_some htuple
  · exact gives_throw

theorem parsesHeaded_succ {n : ℕ} (h : ParsesHeaded n) : ParsesHeaded (n+1) where
  statement := parseStatement_headed h
  items := by
    rw [parseItems]
    refine (gives_true _).bind fun t _ => ?_
    split_ifs
    · exact gives_pure (by simp [HeadedAll])
    · exact h.statement.bind fun s hs => h.items.bind fun ss hss => gives_pure (headed_append hs hss)
  block := by
    rw [parseBlock]
    exact (gives_true _).bind fun _ _ => h.items.bind fun ss hss => (gives_true _).bind fun _ _ =>
      gives_pure hss
  transaction := by
    rw [parseTransaction]
    refine (gives_true _).bind fun _ _ => (gives_true _).bind fun _ _ => (gives_true _).bind fun _ _ =>
      h.block.bind fun ss hss => gives_pure fun fs => ?_
    exact List.forall_mem_cons.mpr ⟨by simp, hss.sites _⟩
  ifStmt := by
    rw [parseIf]
    have hnone : ∀ (e : Expression) (ss : List Statement), HeadedAll ss →
        (pure (Statement.ifStmt e ss none) : ParserM Statement).Gives Statement.Headed :=
      fun e ss hss => gives_pure (headed_ifStmt hss (by simp))
    refine (gives_true _).bind fun _ _ => (gives_true _).bind fun e _ => (gives_true _).bind fun _ _ =>
      h.block.bind fun ss hss => (gives_true _).bind fun more _ => ?_
    split_ifs
    · refine (gives_true _).bind fun t _ => ?_
      split_ifs
      · refine (gives_true _).bind fun _ _ => (gives_true _).bind fun _ _ =>
          h.block.bind fun es hes => gives_pure (headed_ifStmt hss ?_)
        exact fun ss' hss' => Option.mem_some_iff.mp hss' ▸ hes
      · exact hnone e ss hss
    · exact hnone e ss hss
  forStmt := by
    rw [parseFor]
    exact (gives_true _).bind fun _ _ => (parseInitPart_gives h.statement).bind fun init hinit =>
      (gives_true _).bind fun _ _ => parseHeaderPart_gives.bind fun cond hcond =>
        (gives_true _).bind fun _ _ => (gives_true _).bind fun every _ => (gives_true _).bind fun _ _ =>
          h.block.bind fun ss hss => gives_pure (headed_forStmt hinit hcond hss)
  scan := by
    rw [parseScan]
    exact (gives_true _).bind fun _ _ => (gives_true _).bind fun _ _ => (gives_true _).bind fun _ _ =>
      (gives_true _).bind fun _ _ => (gives_true _).bind fun _ _ => h.block.bind fun ss hss =>
        gives_pure fun fs => hss.sites _

theorem parsesHeaded (n : ℕ) : ParsesHeaded n := by
  induction n with
  | zero => exact parsesHeaded_zero
  | succ n ih => exact parsesHeaded_succ ih

theorem parseLoop_headed (n : ℕ) : (parseLoop n).Gives HeadedAll := by
  induction n with
  | zero => exact gives_timeout
  | succ n ih =>
    rw [parseLoop]
    refine (gives_true _).bind fun more _ => ?_
    split_ifs
    · exact (parsesHeaded n).statement.bind fun s hs => ih.bind fun ss hss =>
        gives_pure (headed_append hs hss)
    · exact gives_pure (by simp [HeadedAll])

/-- No `For` of a parsed program has a null pointer for its condition. -/
theorem parse_headed {n : ℕ} {code : Text} {ss : List Statement} {rest : List Token}
    (h : parse n code = .ok ss rest) : HeadedAll ss := by
  unfold parse at h
  split at h
  · exact parseLoop_headed n h
  · exact absurd h (by simp)

end Reir
