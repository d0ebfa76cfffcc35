import Reir.Behaviours
import Reir.Erasure

/-! Programs over 64-bit integers: declarations, assignments, conditions, loops, printed numbers and
emitted rows. Their direct semantics speaks of the values of the variables and of the output, not
of slots, registers or blocks. -/
namespace Reir
open StructuredCode

/-- The values of the variables. -/
abbrev Env := Text → BitVec 64

/-- A number that is printed, a row that is emitted, or what is handed to the outside instead of
these. -/
inductive Output
  | print (v : BitVec 64)
  | row (vs : List (BitVec 64))
  | invalid
  deriving DecidableEq, Repr

inductive Arith
  | plus | minus | multiple | division | modulo
  deriving DecidableEq, Repr

/-- Integers wrap around; division by zero and the quotient that does not fit have no result. -/
def Arith.apply : Arith → BitVec 64 → BitVec 64 → Option (BitVec 64)
  | .plus, a, b => some (a+b)
  | .minus, a, b => some (a-b)
  | .multiple, a, b => some (a*b)
  | .division, a, b => if b = 0 ∨ a = BitVec.intMin 64 ∧ b = -1 then none else some (a.sdiv b)
  | .modulo, a, b => if b = 0 ∨ a = BitVec.intMin 64 ∧ b = -1 then none else some (a.srem b)

inductive Comparison
  | equal | notequal | lessthan | lessequal | morethan | moreequal
  deriving DecidableEq, Repr

def Comparison.holds : Comparison → BitVec 64 → BitVec 64 → Bool
  | .equal, a, b => a = b
  | .notequal, a, b => a ≠ b
  | .lessthan, a, b => a.toInt < b.toInt
  | .lessequal, a, b => a.toInt ≤ b.toInt
  | .morethan, a, b => b.toInt < a.toInt
  | .moreequal, a, b => b.toInt ≤ a.toInt

inductive Number
  | literal (v : BitVec 64)
  | variable (x : Text)
  | arith (op : Arith) (l r : Number)
  | assign (x : Text) (e : Number)

/-- A number as an operand of `&&` or `||` is true if it is not zero. -/
inductive Condition
  | nonzero (e : Number)
  | compare (op : Comparison) (l r : Number)
  | both (l r : Condition)
  | either (l r : Condition)

/-- What stands as a statement of its own, or as the last part of the header of a loop. -/
inductive Action
  | evaluate (e : Number)
  | test (c : Condition)
  | print (e : Number)

/-- What a loop may start with. -/
inductive Init
  | letVar (x : Text) (e : Number)
  | action (a : Action)

inductive Command
  | init (i : Init)
  | block (ps : List Command)
  | ifElse (c : Condition) (ps qs : List Command)
  | forLoop (i : Init) (c : Condition) (every : Action) (ps : List Command)
  | emit (es : List Number)

def Number.run : Number → Env → Option (BitVec 64 × Env)
  | .literal v, ρ => some (v, ρ)
  | .variable x, ρ => some (ρ x, ρ)
  | .arith op l r, ρ => do
    let (a, ρ) ← l.run ρ
    let (b, ρ) ← r.run ρ
    let v ← op.apply a b
    some (v, ρ)
  | .assign x e, ρ => do
    let (v, ρ) ← e.run ρ
    some (v, Function.update ρ x v)

/-- The second operand is evaluated only if the first one does not decide. -/
def Condition.run : Condition → Env → Option (Bool × Env)
  | .nonzero e, ρ => do
    let (v, ρ) ← e.run ρ
    some (v ≠ 0, ρ)
  | .compare op l r, ρ => do
    let (a, ρ) ← l.run ρ
    let (b, ρ) ← r.run ρ
    some (op.holds a b, ρ)
  | .both l r, ρ => do
    let (b, ρ) ← l.run ρ
    if b then r.run ρ else some (false, ρ)
  | .either l r, ρ => do
    let (b, ρ) ← l.run ρ
    if b then some (true, ρ) else r.run ρ

def Action.run : Action → Env → Option (Env × List Output)
  | .evaluate e, ρ => (e.run ρ).map fun r => (r.2, [])
  | .test c, ρ => (c.run ρ).map fun r => (r.2, [])
  | .print e, ρ => (e.run ρ).map fun r => (r.2, [.print r.1])

def Init.run : Init → Env → Option (Env × List Output)
  | .letVar x e, ρ => (e.run ρ).map fun r => (Function.update r.2 x r.1, [])
  | .action a, ρ => a.run ρ

/-- The values of the elements of a row, which do not change the variables. -/
def rowValues : List Number → Env → Option (List (BitVec 64))
  | [], _ => some []
  | e :: es, ρ => do
    let (v, _) ← e.run ρ
    let vs ← rowValues es ρ
    some (v :: vs)

mutual

/-- What a command does to the variables and puts out. -/
def Command.does : Command → Behaviour Env Env Output
  | .init i => .step i.run
  | .block ps => doesAll ps
  | .ifElse c ps qs => .branch c.run (doesAll ps) (doesAll qs)
  | .forLoop i c every ps => .seq (.step i.run) (.loop c.run ((doesAll ps).seq (.step every.run)))
  | .emit es => .step fun ρ => (rowValues es ρ).map fun vs => (ρ, [.row vs])

def doesAll : List Command → Behaviour Env Env Output
  | [] => .silent some
  | p :: ps => p.does.seq (doesAll ps)

end

def Number.vars : Number → List Text
  | .literal _ => []
  | .variable x => [x]
  | .arith _ l r => l.vars ++ r.vars
  | .assign x e => x :: e.vars

def Condition.vars : Condition → List Text
  | .nonzero e => e.vars
  | .compare _ l r => l.vars ++ r.vars
  | .both l r => l.vars ++ r.vars
  | .either l r => l.vars ++ r.vars

def Action.vars : Action → List Text
  | .evaluate e => e.vars
  | .test c => c.vars
  | .print e => e.vars

/-- The names that are declared behind what is in the scope of others, if it uses no name before
its declaration. -/
def Init.scope (xs : List Text) : Init → Option (List Text)
  | .letVar x e => if e.vars ⊆ xs then some (x :: xs) else none
  | .action a => if a.vars ⊆ xs then some xs else none

mutual

def Command.scope (xs : List Text) : Command → Option (List Text)
  | .init i => i.scope xs
  | .block ps => scopeAll xs ps
  | .ifElse c ps qs =>
    if c.vars ⊆ xs then do
      let xs ← scopeAll xs ps
      scopeAll xs qs
    else none
  | .forLoop i c every ps => do
    let xs ← i.scope xs
    if c.vars ⊆ xs ∧ every.vars ⊆ xs then scopeAll xs ps else none
  | .emit es => if es.flatMap Number.vars ⊆ xs then some xs else none

def scopeAll (xs : List Text) : List Command → Option (List Text)
  | [] => some xs
  | p :: ps => do
    let xs ← p.scope xs
    scopeAll xs ps

end

def Operators.arith : Operators → Option Arith
  | .plus => some .plus
  | .minus => some .minus
  | .multiple => some .multiple
  | .division => some .division
  | .modulo => some .modulo
  | _ => Option.none

def Operators.comparison : Operators → Option Comparison
  | .equal => some .equal
  | .notequal => some .notequal
  | .lessthan => some .lessthan
  | .lessequal => some .lessequal
  | .morethan => some .morethan
  | .moreequal => some .moreequal
  | _ => Option.none

def Expression.number : Expression → Option Number
  | .primary _ (some (.int v)) => some (.literal v)
  | .variable _ x => some (.variable x)
  | .binary _ l op r => do
    let op ← op.arith
    let l ← l.number
    let r ← r.number
    some (.arith op l r)
  | .assign _ (.variable _ x) v => do
    let v ← v.number
    some (.assign x v)
  | _ => none

/-- Something is compared, or a condition is put together from others. -/
def Expression.truth : Expression → Option Condition
  | .binary _ l .conditionalAnd r => do
    let l ← l.truth <|> l.number.map .nonzero
    let r ← r.truth <|> r.number.map .nonzero
    some (.both l r)
  | .binary _ l .conditionalOr r => do
    let l ← l.truth <|> l.number.map .nonzero
    let r ← r.truth <|> r.number.map .nonzero
    some (.either l r)
  | .binary _ l op r => do
    let op ← op.comparison
    let l ← l.number
    let r ← r.number
    some (.compare op l r)
  | _ => none

def Expression.condition (e : Expression) : Option Condition := e.truth <|> e.number.map .nonzero

theorem Expression.condition_eq_some {e : Expression} {c : Condition} (h : e.condition = some c) :
    e.truth = some c ∨ ∃ t, e.number = some t ∧ c = .nonzero t := by
  rw [condition, Option.orElse_eq_orElse, Option.orElse_eq_or, Option.or_eq_some_iff] at h
  rcases h with htruth | ⟨-, hnumber⟩
  · exact .inl htruth
  · obtain ⟨t, ht, rfl⟩ := Option.map_eq_some_iff.mp hnumber
    exact .inr ⟨t, ht, rfl⟩

/-- The number that is printed. -/
def Expression.printed : Expression → Option Number
  | .functionCall _ (.variable _ f) [e] => if f = text "print_int" then e.number else none
  | _ => none

def Expression.action (e : Expression) : Option Action :=
  e.printed.map .print <|> e.number.map .evaluate <|> e.truth.map .test

theorem Expression.action_eq_some {e : Expression} {a : Action} (h : e.action = some a) :
    (∃ t, e.printed = some t ∧ a = .print t) ∨ (∃ t, e.number = some t ∧ a = .evaluate t) ∨
      ∃ c, e.truth = some c ∧ a = .test c := by
  simp only [action, Option.orElse_eq_orElse, Option.orElse_eq_or, Option.or_eq_some_iff] at h
  rcases h with hprint | ⟨-, hnumber | ⟨-, htest⟩⟩
  · obtain ⟨t, ht, rfl⟩ := Option.map_eq_some_iff.mp hprint
    exact .inl ⟨t, ht, rfl⟩
  · obtain ⟨t, ht, rfl⟩ := Option.map_eq_some_iff.mp hnumber
    exact .inr (.inl ⟨t, ht, rfl⟩)
  · obtain ⟨c, hc, rfl⟩ := Option.map_eq_some_iff.mp htest
    exact .inr (.inr ⟨c, hc, rfl⟩)

def Statement.init : Statement → Option Init
  | .letStmt x e _ => e.number.map (.letVar x)
  | .exprStatement _ e => e.action.map .action
  | _ => none

/-- Without an assignment. -/
def Number.isPure : Number → Bool
  | .literal _ => true
  | .variable _ => true
  | .arith _ l r => l.isPure && r.isPure
  | .assign _ _ => false

def pureNumbers : List Expression → Option (List Number)
  | [] => some []
  | e :: es => do
    let t ← e.number
    let ts ← pureNumbers es
    if t.isPure then some (t :: ts) else none

mutual

/-- The command that a statement is, if it is one. -/
def Statement.command : Statement → Option Command
  | .block ss => (commands ss).map .block
  | .forStmt (.to s) (.to c) (.to e) blk => do
    let i ← s.init
    let c ← c.truth
    let a ← e.action
    let ps ← commands blk
    some (.forLoop i c a ps)
  | .emit _ (.rowLiteral _ es) => if 8*es.length < 2^64 then (pureNumbers es).map .emit else none
  | .ifStmt c ts fs => do
    let c ← c.condition
    let ps ← commands ts
    let qs ← commandsElse fs
    some (.ifElse c ps qs)
  | s => s.init.map .init

def commandsElse : Option (List Statement) → Option (List Command)
  | none => some []
  | some ss => commands ss

def commands : List Statement → Option (List Command)
  | [] => some []
  | s :: ss => do
    let p ← s.command
    let ps ← commands ss
    some (p :: ps)

end

attribute [local simp] Command.does doesAll Command.scope scopeAll Statement.command commands

theorem Expression.number_erase (e : Expression) : e.erase.number = e.number := by
  induction e using Expression.induction with
  | primary n v =>
    cases v with
    | none => rfl
    | some w => cases w <;> rfl
  | binary n l op r hl hr => simp [erase, number, hl, hr]
  | variableRef n x => rfl
  | assign n t v _ hv =>
    cases t with
    | «variable» m x => simp [erase, number, hv]
    | _ => rfl
  | _ => rfl

theorem Expression.truth_erase (e : Expression) : e.erase.truth = e.truth := by
  induction e using Expression.induction with
  | binary n l op r hl hr =>
    cases op <;> simp [erase, truth, hl, hr, number_erase]
  | _ => rfl

theorem Expression.condition_erase (e : Expression) : e.erase.condition = e.condition := by
  rw [condition, condition, truth_erase, number_erase]

theorem Expression.printed_erase (e : Expression) : e.erase.printed = e.printed := by
  cases e with
  | functionCall n p as =>
    cases p with
    | «variable» m f =>
      cases as with
      | nil => rfl
      | cons a as =>
        cases as with
        | nil => simp [erase, eraseList, printed, number_erase]
        | cons _ _ => rfl
    | _ => rfl
  | _ => rfl

theorem Expression.action_erase (e : Expression) : e.erase.action = e.action := by
  rw [action, action, printed_erase, number_erase, truth_erase]

theorem Statement.init_erase (s : Statement) : s.erase.init = s.init := by
  cases s with
  | letStmt x e type => simp [erase, init, e.number_erase]
  | exprStatement stack e => simp [erase, init, e.action_erase]
  | _ => rfl

theorem pureNumbers_erase (es : List Expression) : pureNumbers (eraseList es) = pureNumbers es := by
  induction es with
  | nil => rfl
  | cons e es ih => simp [eraseList, pureNumbers, e.number_erase, ih]

theorem eraseList_length (es : List Expression) : (eraseList es).length = es.length := by
  induction es with
  | nil => rfl
  | cons e es ih => simp [eraseList, ih]

theorem commands_erase_of {ss : List Statement} (h : ∀ s ∈ ss, s.erase.command = s.command) :
    commands (eraseAll ss) = commands ss := by
  induction ss with
  | nil => rfl
  | cons s ss ih =>
    rw [List.forall_mem_cons] at h
    simp [eraseAll, commands, h.1, ih h.2]

/-- A program and the trees of the passes are the same command. -/
theorem Statement.command_erase (s : Statement) : s.erase.command = s.command := by
  induction s using Statement.induction with
  | block ss hss => simp [erase, command, commands_erase_of hss]
  | forStmt init cond every blk _ hblk =>
    cases init with
    | «to» s =>
      cases cond with
      | «to» c =>
        cases every with
        | «to» e =>
          simp [erase, eraseInit, Ptr.erase, command, s.init_erase, c.truth_erase, e.action_erase,
            commands_erase_of hblk]
        | _ => rfl
      | _ => cases every <;> rfl
    | _ => cases cond <;> cases every <;> rfl
  | emit stack e =>
    cases e with
    | rowLiteral n es => simp [erase, Expression.erase, command, pureNumbers_erase, eraseList_length]
    | _ => rfl
  | letStmt x e type => simp [erase, command, init, e.number_erase]
  | ifStmt c ts fs hts hfs =>
    have helse : commandsElse (eraseElse fs) = commandsElse fs := by
      cases fs with
      | none => rfl
      | some ss => exact commands_erase_of (hfs ss rfl)
    simp [erase, command, c.condition_erase, commands_erase_of hts, helse]
  | exprStatement stack e => simp [erase, command, init, e.action_erase]
  | _ => rfl

theorem commands_congr {ss ss' : List Statement} (h : eraseAll ss' = eraseAll ss) :
    commands ss' = commands ss := by
  rw [← commands_erase_of fun s _ => s.command_erase, h, commands_erase_of fun s _ => s.command_erase]

end Reir
